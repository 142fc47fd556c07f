import ModuleScript.Proofs.Machine.Work
import ModuleScript.Proofs.Scoping.Runs

/-!
What an evaluation does to the frames that there are. Main statement: `frame_effect`, evaluating an
expression leaves all frames as they were, and executing a statement changes its own frame at most,
under the names that it declares.
-/

namespace ModuleScript

/-- Putting `more` into `g` touches no frame below `limit`, unless it is `f` and for `names`. -/
def SparesFrames (limit f : FrameId) (names : List Name) (g : FrameId) (more : List Name) : Prop :=
  limit ≤ g ∨ g = f ∧ ∀ y ∈ more, y ∈ names

namespace Scopes

variable {α : Type} {s t u : Scopes α} {f g : FrameId} {names more : List Name}

/--
There may be more frames than in `s`. Those of `s` stand where they stood and hold the cells that
they held, but for `names` in the frame `f`.
-/
structure Grows (f : FrameId) (names : List Name) (s t : Scopes α) : Prop where
  frames : s.nextFrame ≤ t.nextFrame
  chain : ∀ g < s.nextFrame, t.chain g = s.chain g
  here : ∀ g < s.nextFrame, ∀ y, ¬(g = f ∧ y ∈ names) → t.here? g y = s.here? g y

theorem grows_refl (f : FrameId) (names : List Name) (s : Scopes α) : Grows f names s s :=
  ⟨Nat.le_refl _, fun _ _ => rfl, fun _ _ _ _ => rfl⟩

theorem Grows.fills (h : Grows f names s t) (hfills : Fills g more t u)
    (hspares : SparesFrames s.nextFrame f names g more) : Grows f names s u where
  frames := Nat.le_trans h.frames (Nat.le_of_eq hfills.frames.symm)
  chain k hk := (hfills.chain k).trans (h.chain k hk)
  here k hk y hy := by
    have hother : ¬(k = g ∧ y ∈ more) := by
      rintro ⟨rfl, hmem⟩
      rcases hspares with hyoung | ⟨rfl, hmore⟩
      · exact absurd hk (Nat.not_lt_of_le hyoung)
      · exact hy ⟨rfl, hmore y hmem⟩
    exact (hfills.here k y hother).trans (h.here k hk y hy)

theorem Grows.newFrame (h : Grows f names s t) (enclosing : List FrameId) :
    Grows f names s (t.newFrame enclosing) where
  frames := Nat.le_trans h.frames (by simp)
  chain k hk := by
    have hold : k ≠ t.nextFrame := Nat.ne_of_lt (Nat.lt_of_lt_of_le hk h.frames)
    rw [chain_newFrame, if_neg hold]
    exact h.chain k hk
  here k hk y hy := (here?_newFrame t enclosing k y).trans (h.here k hk y hy)

theorem Grows.lookup? (h : Grows f names s t) (hg : ∀ k ∈ s.chain g, k < s.nextFrame) {x : Name}
    (hx : f ∉ s.chain g ∨ x ∉ names) : t.lookup? g x = s.lookup? g x := by
  have hchain : t.chain g = s.chain g := h.chain g (hg g List.mem_cons_self)
  have hhere : ∀ k ∈ s.chain g, t.here? k x = s.here? k x := by
    intro k hk
    apply h.here k (hg k hk) x
    rintro ⟨rfl, hmem⟩
    rcases hx with hout | hnot
    · exact hout hk
    · exact hnot hmem
  rw [Scopes.lookup?, Scopes.lookup?, hchain]
  exact findSome?_congr hhere

end Scopes

def Control.Spares (limit f : FrameId) (names : List Name) : Control → Prop
  | .exec body g => ∀ stmt ∈ body, SparesFrames limit f names g stmt.declared
  | _ => True

def Pending.Spares (limit f : FrameId) (names : List Name) : Pending → Prop
  | .next rest g => ∀ stmt ∈ rest, SparesFrames limit f names g stmt.declared
  | .imports _ _ more g => SparesFrames limit f names g more
  | _ => True

/-- An evaluation over `stack` is not done: it has work of its own left, or nothing to deliver. -/
def Config.Busy (stack : List Pending) (c : Config) : Prop :=
  ∃ own, c.stack = own ++ stack ∧ (own = [] → c.control.delivers = false)

section

variable {c : Config} {stack : List Pending} {limit f g : FrameId} {names : List Name}

theorem Control.Spares.statement {stmt : Stmt} {rest : List Stmt}
    (h : c.control.Spares limit f names) (hc : c.control = .exec (stmt :: rest) g) :
    SparesFrames limit f names g stmt.declared := by
  rw [hc] at h
  exact h stmt List.mem_cons_self

theorem Config.Busy.exists_waiting (h : c.Busy stack) (hs : ∃ own, c.stack = own ++ stack ∧
    ∀ w ∈ own, w.Spares limit f names) :
    ∃ own, c.waiting = own ++ stack ∧ (∀ w ∈ own, w.Spares limit f names) ∧
      ∀ w rest, c.control.delivers = true → c.stack = w :: rest →
        w.Spares limit f names := by
  obtain ⟨own, hstack, hown⟩ := hs
  obtain ⟨own', hstack', hbusy⟩ := h
  obtain rfl : own = own' := List.append_cancel_right (hstack.symm.trans hstack')
  cases own with
  | nil =>
    have hdelivers := hbusy rfl
    refine ⟨[], ?_, List.forall_mem_nil _, fun w rest hc _ => ?_⟩
    · rw [Config.waiting, hdelivers, hstack]
      rfl
    · rw [hdelivers] at hc
      cases hc
  | cons top own =>
    obtain ⟨htop, hrest⟩ := List.forall_mem_cons.mp hown
    by_cases hdelivers : c.control.delivers = true
    · refine ⟨own, ?_, hrest, fun w rest _ hw => ?_⟩
      · rw [Config.waiting, if_pos hdelivers, hstack]
        rfl
      · rw [hstack] at hw
        cases hw
        exact htop
    · refine ⟨top :: own, ?_, hown, fun w rest hc _ => absurd hc hdelivers⟩
      rw [Config.waiting, if_neg hdelivers, hstack]

end

namespace Machine

variable {p : Program} {c d : Config} {stack : List Pending} {f : FrameId} {names : List Name}
  {s : Scopes Value}

/--
The configurations to which an evaluation goes on that begins in `c` over the work `stack`, up to
and with the one in which it delivers a value, returns or fails.
-/
inductive During (p : Program) (stack : List Pending) (c : Config) : Config → Prop
  | start : During p stack c c
  | step {d e : Config} : During p stack c d → d.Busy stack → Machine.step p d = .next e →
      During p stack c e

/-- The evaluation has touched none of the frames of `s`, but for `names` in `f`, and will not. -/
structure Contained (f : FrameId) (names : List Name) (s : Scopes Value) (stack : List Pending)
    (c : Config) : Prop where
  control : c.control.Spares s.nextFrame f names
  stack : ∃ own, c.stack = own ++ stack ∧ ∀ w ∈ own, w.Spares s.nextFrame f names
  scopes : Scopes.Grows f names s c.state.scopes

/-- What a step does to the state, when the code at work and the work that it takes up spare `s`. -/
theorem Change.grows {t : State} (h : Change p c t)
    (hscopes : Scopes.Grows f names s c.state.scopes)
    (hcontrol : c.control.Spares s.nextFrame f names)
    (htop : ∀ w rest, c.control.delivers = true → c.stack = w :: rest →
      w.Spares s.nextFrame f names) : Scopes.Grows f names s t.scopes := by
  cases h with
  | keep => exact hscopes
  | host hhost => exact hscopes
  | write hc hstack hcell =>
    exact hscopes.fills (Scopes.write_fills _ _ _ f) (.inr ⟨rfl, List.forall_mem_nil _⟩)
  | declare hc => exact hscopes.fills (Scopes.bindNew_fills _ _ _ _) (hcontrol.statement hc)
  | function hc => exact hscopes.fills (Scopes.bindNew_fills _ _ _ _) (hcontrol.statement hc)
  | natives hc => exact hscopes.fills (Scopes.importNatives_fills _ _ _ _) (hcontrol.statement hc)
  | importLoaded hc hx hm hl =>
    exact hscopes.fills (Scopes.importNames_fills _ _ _ _ _) (hcontrol.statement hc)
  | importEnded hc hstack =>
    exact hscopes.fills (Scopes.importNames_fills _ _ _ _ _) (htop _ _ hc hstack)
  | child hbranches => exact hscopes.newFrame _
  | enter hcall hk hargs =>
    exact (hscopes.newFrame _).fills (Scopes.defineAll_fills _ _ _) (.inl hscopes.frames)
  | start hc hx hm hl => exact hscopes.newFrame []

theorem NewWork.spares {w : Pending} {limit : FrameId} (h : NewWork p c d w)
    (hcontrol : c.control.Spares limit f names) : w.Spares limit f names := by
  cases h with
  | inner hw =>
    cases w with
    | next rest g => cases hw
    | imports source exports more g => cases hw
    | _ => exact trivial
  | next hc =>
    rw [hc] at hcontrol
    exact fun stmt hstmt => hcontrol stmt (List.mem_cons_of_mem _ hstmt)
  | imports hc hm hl => exact hcontrol.statement hc

theorem Contained.moves {own : List Pending} (hscopes : Scopes.Grows f names s c.state.scopes)
    (hcontrol : c.control.Spares s.nextFrame f names)
    (htop : ∀ w rest, c.control.delivers = true → c.stack = w :: rest →
      w.Spares s.nextFrame f names)
    (hown : ∀ w ∈ own, w.Spares s.nextFrame f names) (hmoves : Moves p c (own ++ stack) d)
    (hchange : Change p c d.state) : Contained f names s stack d where
  scopes := hchange.grows hscopes hcontrol htop
  stack := by
    obtain ⟨new, hstack, hnew⟩ := hmoves.stack
    have hspares : ∀ w ∈ new ++ own, w.Spares s.nextFrame f names :=
      List.forall_mem_append.mpr ⟨fun w hw => (hnew w hw).spares hcontrol, hown⟩
    exact ⟨new ++ own, by rw [hstack, List.append_assoc], hspares⟩
  control := by
    cases hd : d.control with
    | exec body g =>
      cases hmoves.control body g hd with
      | opened => exact fun stmt hstmt => .inl hscopes.frames
      | rest hc hstack => exact htop _ _ hc hstack
    | _ => exact trivial

theorem Contained.step (h : Contained f names s stack c) (hbusy : c.Busy stack)
    (hstep : Machine.step p c = .next d) : Contained f names s stack d := by
  obtain ⟨own, hwaiting, hown, htop⟩ := hbusy.exists_waiting h.stack
  have hmoves : Moves p c (own ++ stack) d := hwaiting ▸ step_moves hstep
  exact .moves h.scopes h.control htop hown hmoves (step_change hstep)

theorem Contained.during (h : Contained f names s stack c) (hd : During p stack c d) :
    Contained f names s stack d := by
  induction hd with
  | start => exact h
  | step _ hbusy hstep ih => exact ih.step hbusy hstep

/--
The beginning of an evaluation over `stack` in the state `s`, the frame in which it takes place, and
the names that it declares there. An expression declares none, a block those of its statements. The
body of a function, a branch or a loop and that of a module begin in a frame made for them.
-/
inductive Begins (p : Program) (s : State) (stack : List Pending) :
    Config → FrameId → List Name → Prop
  | expression (e : Expr) (f : FrameId) : Begins p s stack ⟨.eval e f, stack, s⟩ f []
  | statement (stmt : Stmt) (f : FrameId) :
      Begins p s stack (execute p stmt f stack s) f stmt.declared
  | block (body : List Stmt) (f : FrameId) :
      Begins p s stack ⟨.exec body f, stack, s⟩ f (body.flatMap Stmt.declared)
  | body (body : List Stmt) (f : FrameId) (bindings : List (Name × Value)) :
      Begins p s stack ⟨.exec body s.nextFrame, stack, s.onScopes (·.enter f bindings)⟩
        s.nextFrame []
  | module (body : List Stmt) (x : Name) :
      Begins p s stack ⟨.exec body s.nextFrame, stack, s.startModule x⟩ s.nextFrame []

theorem Begins.contained {s : State} (h : Begins p s stack c f names) :
    Contained f names s.scopes stack c := by
  have hrefl := Scopes.grows_refl f names s.scopes
  have hyoung : s.scopes.nextFrame ≤ s.nextFrame := Nat.le_refl _
  cases h with
  | expression e => exact ⟨trivial, ⟨[], rfl, List.forall_mem_nil _⟩, hrefl⟩
  | block body =>
    refine ⟨fun stmt hstmt => .inr ⟨rfl, fun y hy => ?_⟩, ⟨[], rfl, List.forall_mem_nil _⟩, hrefl⟩
    exact List.mem_flatMap.mpr ⟨stmt, hstmt, hy⟩
  | body body f bindings =>
    have hentered := (hrefl.newFrame (s.scopes.chain f)).fills
      (Scopes.defineAll_fills _ s.nextFrame bindings) (.inl hyoung)
    exact ⟨fun _ _ => .inl hyoung, ⟨[], rfl, List.forall_mem_nil _⟩, hentered⟩
  | module body x =>
    exact ⟨fun _ _ => .inl hyoung, ⟨[], rfl, List.forall_mem_nil _⟩, hrefl.newFrame []⟩
  | statement stmt =>
    -- the first step of a block that consists of the statement
    have hcontrol : (Control.exec [stmt] f).Spares s.scopes.nextFrame f stmt.declared :=
      List.forall_mem_singleton.mpr (.inr ⟨rfl, fun _ hy => hy⟩)
    have hmoves : Moves p ⟨.exec [stmt] f, stack, s⟩ stack (execute p stmt f stack s) :=
      execute_moves rfl
    have hchange : Change p ⟨.exec [stmt] f, stack, s⟩ (execute p stmt f stack s).state :=
      execute_change stack rfl
    refine .moves (c := ⟨.exec [stmt] f, stack, s⟩) hrefl hcontrol ?_ (List.forall_mem_nil _) hmoves
      hchange
    intro w rest hdelivers
    cases hdelivers

theorem Change.closure? {t : State} {k : ClosureId} {closure : Closure} (h : Change p c t)
    (hk : c.state.closures[k]? = some closure) : t.closures[k]? = some closure := by
  cases h with
  | @function x routine rest f hc =>
    have hold : k ≠ c.state.closures.size := Nat.ne_of_lt (Array.getElem?_eq_some_iff.mp hk).1
    have hpush : (c.state.closures.push ⟨routine, f⟩)[k]? = c.state.closures[k]? := by
      rw [Array.getElem?_push, if_neg hold]
    exact hpush.trans hk
  | _ => exact hk

theorem Begins.closure? {s : State} {k : ClosureId} {closure : Closure}
    (h : Begins p s stack c f names) (hk : s.closures[k]? = some closure) :
    c.state.closures[k]? = some closure := by
  cases h with
  | statement stmt =>
    have hchange : Change p ⟨.exec [stmt] f, stack, s⟩ (execute p stmt f stack s).state :=
      execute_change stack rfl
    exact hchange.closure? hk
  | _ => exact hk

theorem During.closure? {k : ClosureId} {closure : Closure} (h : During p stack c d)
    (hk : c.state.closures[k]? = some closure) : d.state.closures[k]? = some closure := by
  induction h with
  | start => exact hk
  | step _ _ hstep ih => exact (step_change hstep).closure? ih

theorem During.ends (h : During p stack c d) (hd : Contained f names s stack d) :
    (∃ e, Machine.step p d = .next e ∧ During p stack c e) ∨
      (∃ fault, d.control = .fault fault) ∨ d.control.delivers = true ∧ d.stack = stack := by
  by_cases hfault : ∃ fault, d.control = .fault fault
  · exact .inr (.inl hfault)
  obtain ⟨own, hstack, -⟩ := hd.stack
  by_cases hdone : own = [] ∧ d.control.delivers = true
  · obtain ⟨rfl, hdelivers⟩ := hdone
    exact .inr (.inr ⟨hdelivers, hstack⟩)
  have hbusy : d.Busy stack :=
    ⟨own, hstack, fun hown => Bool.eq_false_iff.mpr fun hdelivers => hdone ⟨hown, hdelivers⟩⟩
  have hwork : d.control.delivers = true → d.stack ≠ [] := by
    intro hdelivers hempty
    have hown : own = [] := (List.append_eq_nil_iff.mp (hstack.symm.trans hempty)).1
    exact hdone ⟨hown, hdelivers⟩
  have hgoes : ∀ fault, d.control ≠ .fault fault := fun fault hc => hfault ⟨fault, hc⟩
  obtain ⟨e, hstep⟩ := exists_step (p := p) hgoes hwork
  exact .inl ⟨e, hstep, h.step hbusy hstep⟩

end Machine

theorem Scoped.lt_of_mem_chain {p : Program} {blocks : List Block} {s : State} {f g : FrameId}
    (h : Scoped p blocks s) (hf : f < s.nextFrame) (hg : g ∈ s.scopes.chain f) :
    g < s.nextFrame := by
  obtain ⟨x, m, path, hstands⟩ := h.stands f hf
  have hframes := hstands.frames.imp fun g b hb => And.intro (h.lt_nextFrame hb.1) hb
  exact ((List.forall₂_and_left _ _).mp hframes).1 g hg

/--
What evaluations in the state `s` do to its frames, at every moment up to their end. A frame of `s`
stays where it stands and keeps the cells that it holds, unless it is the frame of the evaluation
and the names are declared there. So whatever is declared further inside, in a function that is
called or in a module that is imported, names keep their meaning in the frames of `s` and for the
closures that there are. This goes for calls of native functions too, which are isolated (`Native`).
An evaluation goes on until it fails or delivers to the work that waits.
-/
structure FrameEffect (p : Program) (s : State) : Prop where
  frames : ∀ {stack c f names d}, Machine.Begins p s stack c f names →
    Machine.During p stack c d → ∀ g < s.nextFrame,
      d.state.scopes.chain g = s.scopes.chain g ∧
        ∀ x, ¬(g = f ∧ x ∈ names) → d.state.scopes.here? g x = s.scopes.here? g x
  meanings : ∀ {stack c f names d}, Machine.Begins p s stack c f names →
    Machine.During p stack c d → ∀ g < s.nextFrame, ∀ x, f ∉ s.scopes.chain g ∨ x ∉ names →
      d.state.scopes.lookup? g x = s.scopes.lookup? g x
  closures : ∀ {stack c f names d}, Machine.Begins p s stack c f names →
    Machine.During p stack c d → ∀ (k : ClosureId) (closure : Closure),
      s.closures[k]? = some closure → d.state.closures[k]? = some closure ∧
        ∀ x, f ∉ s.scopes.chain closure.frame ∨ x ∉ names →
          d.state.scopes.lookup? closure.frame x = s.scopes.lookup? closure.frame x
  ends : ∀ {stack c f names d}, Machine.Begins p s stack c f names →
    Machine.During p stack c d →
      (∃ e, Machine.step p d = .next e ∧ Machine.During p stack c e) ∨
        (∃ fault, d.control = .fault fault) ∨ d.control.delivers = true ∧ d.stack = stack

theorem frame_effect {p : Program} {host : Host} {n : Nat} {c : Config}
    (hc : p.Reaches host n c) : FrameEffect p c.state := by
  obtain ⟨blocks, hblocks⟩ := exists_blocksOf p host
  have hscoped : Scoped p (blocks n) c.state := (hblocks.lexical n c hc).state
  have hmeanings {stack : List Pending} {b d : Config} {f : FrameId} {names : List Name}
      (hb : Machine.Begins p c.state stack b f names) (hd : Machine.During p stack b d)
      (g : FrameId) (hg : g < c.state.nextFrame) (x : Name)
      (hx : f ∉ c.state.scopes.chain g ∨ x ∉ names) :
      d.state.scopes.lookup? g x = c.state.scopes.lookup? g x :=
    (hb.contained.during hd).scopes.lookup? (fun _ hk => hscoped.lt_of_mem_chain hg hk) hx
  constructor
  · intro stack b f names d hb hd g hg
    have hgrows := (hb.contained.during hd).scopes
    exact ⟨hgrows.chain g hg, hgrows.here g hg⟩
  · intro stack b f names d hb hd
    exact hmeanings hb hd
  · intro stack b f names d hb hd k closure hk
    have hframe : closure.frame < c.state.nextFrame :=
      hscoped.lt_of_blockAt (hscoped.closures k closure hk)
    exact ⟨hd.closure? (hb.closure? hk), hmeanings hb hd closure.frame hframe⟩
  · intro stack b f names d hb hd
    exact hd.ends (hb.contained.during hd)

def shadowing : Program where
  modules := [⟨"Main", [.declare "x", .function "f" ⟨[], [.declare "x"]⟩,
    .eval (.call (.var "f") [])], []⟩]
  natives := ∅

theorem frame_effect_shadowing :
    ∃ c, shadowing.Reaches ⟨.empty, ⟨"", [], fun _ => 0, 0⟩⟩ 5 c ∧
      c.control = .eval (.call (.var "f") []) 0 ∧ FrameEffect shadowing c.state := by
  have hcall : ∃ c, shadowing.Reaches ⟨.empty, ⟨"", [], fun _ => 0, 0⟩⟩ 5 c ∧
      c.control = .eval (.call (.var "f") []) 0 := ⟨_, ⟨_, rfl, rfl⟩, rfl⟩
  obtain ⟨c, hc, hcontrol⟩ := hcall
  exact ⟨c, hc, hcontrol, frame_effect hc⟩

end ModuleScript
