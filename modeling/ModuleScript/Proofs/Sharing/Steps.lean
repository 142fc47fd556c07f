import ModuleScript.Proofs.Machine.Work
import ModuleScript.Proofs.Scoping.Runs
import ModuleScript.Proofs.Sharing.Slots

/-!
Which slots a step fills. Declarations and parameters get new cells, imports from modules share
cells, and no other step fills a slot (`step_slots`).
-/

namespace ModuleScript

/--
The slots to which the next step gives a new cell: those of a variable or a function that is
declared, of native functions that are imported, and of the parameters of a function that is called.
-/
inductive Config.Declares (p : Program) (c : Config) : FrameId → Name → Prop
  | declaration {x : Name} {rest : List Stmt} {f : FrameId} :
      c.control = .exec (.declare x :: rest) f → Declares p c f x
  | function {x : Name} {routine : Routine Stmt} {rest : List Stmt} {f : FrameId} :
      c.control = .exec (.function x routine :: rest) f → Declares p c f x
  | native {x : Name} {names : List Name} {rest : List Stmt} {f : FrameId} :
      c.control = .exec (.importFrom nativeModule names :: rest) f →
      x ∈ names.takeWhile (fun y => (p.natives.find? y).isSome) → Declares p c f x
  | parameter {x : Name} {k : ClosureId} {closure : Closure} {args : List Value} :
      c.Calls (.closure k) args → c.state.closures[k]? = some closure →
      args.length = closure.routine.params.length → x ∈ closure.routine.params →
      Declares p c c.state.nextFrame x

/--
The slots that the next step fills by an import from the module `y`, which has been started before
or has just ended.
-/
inductive Config.Imports (p : Program) (c : Config) (y : Name) : FrameId → Name → Prop
  | loaded {x : Name} {m : Module} {names : List Name} {rest : List Stmt} {f source : FrameId} :
      c.control = .exec (.importFrom y names :: rest) f → y ≠ nativeModule →
      p.module? y = some m → c.state.loaded.find? y = some source →
      x ∈ c.state.scopes.importable source m.exports names → Imports p c y f x
  | ended {x : Name} {m : Module} {names : List Name} {stack : List Pending} {f source : FrameId} :
      c.control.delivers = true → c.stack = .imports source m.exports names f :: stack →
      p.module? y = some m → c.state.loaded.find? y = some source →
      x ∈ c.state.scopes.importable source m.exports names → Imports p c y f x

namespace Machine

variable {p : Program} {c d : Config} {f : FrameId} {x y : Name}

structure Sound (p : Program) (c : Config) : Prop where
  bounded : c.state.scopes.Bounded
  control : ∀ body f, c.control = .exec body f → f < c.state.nextFrame
  imports : ∀ source exports names f, .imports source exports names f ∈ c.stack →
    f < c.state.nextFrame ∧ ∃ x m, p.module? x = some m ∧ exports = m.exports ∧
      c.state.loaded.find? x = some source

theorem step_of_calls {fn : Value} {args : List Value} (hcall : c.Calls fn args) :
    ∃ stack, step p c = .next (call p fn args stack c.state) := by
  cases hcall with
  | @noArguments _ f stack s hcallable =>
    have hresume : resume p fn (.callee [] f) stack s = call p fn [] stack s := by
      rw [resume, if_pos hcallable]
      rfl
    exact ⟨stack, congrArg Progress.next hresume⟩
  | @lastArgument _ v done f stack s => exact ⟨stack, rfl⟩

theorem step_of_branches (h : c.Branches f) :
    ∃ d, step p c = .next d ∧ d.state = c.state.onScopes (·.newChild f) := by
  obtain ⟨control, stack, s⟩ := c
  cases h with
  | branch hcontrol hstack =>
    obtain rfl : control = _ := hcontrol
    obtain rfl : stack = _ := hstack
    exact ⟨_, rfl, rfl⟩
  | iteration hcontrol hstack =>
    obtain rfl : control = _ := hcontrol
    obtain rfl : stack = _ := hstack
    exact ⟨_, rfl, rfl⟩

theorem adds_of_declares (hsound : Sound p c) (h : c.Declares p f x)
    (hstep : step p c = .next d) :
    ∃ names, x ∈ names ∧ Scopes.Adds f names c.state.scopes d.state.scopes := by
  have hdone {stmt : Stmt} {rest : List Stmt} {g : FrameId}
      (hc : c.control = .exec (stmt :: rest) g) :
      g < c.state.scopes.nextFrame ∧ d = execute p stmt g (.next rest g :: c.stack) c.state := by
    refine ⟨hsound.control _ g hc, ?_⟩
    obtain ⟨control, stack, s⟩ := c
    obtain rfl : control = _ := hc
    exact (Progress.next.inj hstep).symm
  cases h with
  | declaration hc =>
    obtain ⟨hlt, rfl⟩ := hdone hc
    exact ⟨[x], List.mem_singleton_self x, Scopes.bindNew_adds hlt x none⟩
  | function hc =>
    obtain ⟨hlt, rfl⟩ := hdone hc
    exact ⟨[x], List.mem_singleton_self x, Scopes.bindNew_adds hlt x _⟩
  | native hc hx =>
    obtain ⟨hlt, rfl⟩ := hdone hc
    refine ⟨_, hx, ?_⟩
    rw [execute, importFrom, if_pos rfl, state_finishImport]
    exact Scopes.importNatives_adds hlt p.natives _
  | @parameter _ k closure args hcall hk hargs hx =>
    obtain ⟨stack, hcalled⟩ := step_of_calls (p := p) hcall
    obtain rfl := Progress.next.inj (hstep.symm.trans hcalled)
    have hnames : (closure.routine.params.zip args).map Prod.fst = closure.routine.params :=
      List.map_fst_zip (Nat.le_of_eq hargs.symm)
    refine ⟨_, hnames ▸ hx, ?_⟩
    simp only [call, hk, callClosure, if_pos hargs]
    exact Scopes.enter_adds _ _ _

theorem shares_of_imports (hsound : Sound p c) (h : c.Imports p y f x)
    (hstep : step p c = .next d) :
    ∃ source names, c.state.loaded.find? y = some source ∧ x ∈ names ∧
      Scopes.Shares source f names c.state.scopes d.state.scopes := by
  cases h with
  | @loaded _ m names rest _ source hc hy hm hl hx =>
    have hlt : f < c.state.scopes.nextFrame := hsound.control _ f hc
    have hd : d = execute p (.importFrom y names) f (.next rest f :: c.stack) c.state := by
      obtain ⟨control, stack, s⟩ := c
      obtain rfl : control = _ := hc
      exact (Progress.next.inj hstep).symm
    refine ⟨source, _, hl, hx, ?_⟩
    rw [hd, execute, importFrom, if_neg hy]
    simp only [hm, hl, state_finishImport]
    exact Scopes.importNames_shares hlt source m.exports names
  | @ended _ m names stack _ source hc hstack hm hl hx =>
    have hlt : f < c.state.scopes.nextFrame :=
      (hsound.imports source m.exports names f (hstack ▸ List.mem_cons_self)).1
    have hd : d.state =
        { c.state with scopes := (c.state.scopes.importNames source m.exports f names).2 } := by
      obtain ⟨control, waiting, s⟩ := c
      obtain rfl : waiting = _ := hstack
      cases control with
      | value v => exact (Progress.next.inj hstep) ▸ state_finishImport _ _ _
      | returned v => exact (Progress.next.inj hstep) ▸ state_finishImport _ _ _
      | _ => cases hc
    refine ⟨source, _, hl, hx, ?_⟩
    rw [hd]
    exact Scopes.importNames_shares hlt source m.exports names

/--
The slots that a step fills all get new cells, or they all share the cells of a module. A step that
fills no slot counts as one of the first kind.
-/
theorem step_slots (hsound : Sound p c) (hstep : step p c = .next d) :
    (∃ f names, Scopes.Adds f names c.state.scopes d.state.scopes ∧
        ∀ x ∈ names, c.Declares p f x) ∨
      ∃ y source f names, c.state.loaded.find? y = some source ∧
        Scopes.Shares source f names c.state.scopes d.state.scopes ∧
          ∀ x ∈ names, c.Imports p y f x := by
  have hnothing {t : Scopes Value} (hcells : c.state.scopes.cells.size ≤ t.cells.size)
      (hkept : ∀ g y, t.here? g y = c.state.scopes.here? g y) :
      ∃ f names, Scopes.Adds f names c.state.scopes t ∧ ∀ x ∈ names, c.Declares p f x :=
    ⟨0, [], Scopes.adds_nil 0 hcells hkept, List.forall_mem_nil _⟩
  have hchange := step_change hstep
  generalize d.state = s at hchange ⊢
  cases hchange with
  | keep => exact .inl (hnothing (Nat.le_refl _) fun _ _ => rfl)
  | host hhost => exact .inl (hnothing (Nat.le_refl _) fun _ _ => rfl)
  | write hc hstack hcell =>
    exact .inl (hnothing (Nat.le_of_eq Array.size_setIfInBounds.symm) fun _ _ => rfl)
  | @declare x rest f hc =>
    have hadds := Scopes.bindNew_adds (hsound.control _ f hc) x none
    exact .inl ⟨f, [x], hadds, List.forall_mem_singleton.mpr (.declaration hc)⟩
  | @function x routine rest f hc =>
    have hadds := Scopes.bindNew_adds (hsound.control _ f hc) x
      (some (.closure c.state.nextClosure))
    exact .inl ⟨f, [x], hadds, List.forall_mem_singleton.mpr (.function hc)⟩
  | @natives names rest f hc =>
    have hadds := Scopes.importNatives_adds (hsound.control _ f hc) p.natives names
    exact .inl ⟨f, _, hadds, fun x hx => .native hc hx⟩
  | @importLoaded y m names rest f source hc hy hm hl =>
    have hshares := Scopes.importNames_shares (hsound.control _ f hc) source m.exports names
    exact .inr ⟨y, source, f, _, hl, hshares, fun x hx => .loaded hc hy hm hl hx⟩
  | @importEnded source f exports names stack hc hstack =>
    obtain ⟨hlt, y, m, hm, rfl, hl⟩ :=
      hsound.imports source exports names f (hstack ▸ List.mem_cons_self)
    have hshares := Scopes.importNames_shares hlt source m.exports names
    exact .inr ⟨y, source, f, _, hl, hshares, fun x hx => .ended hc hstack hm hl hx⟩
  | child hbranches => exact .inl (hnothing (Nat.le_refl _) fun _ _ => Scopes.here?_newFrame ..)
  | @enter k closure args hcall hk hargs =>
    have hadds := Scopes.enter_adds c.state.scopes closure.frame
      (closure.routine.params.zip args)
    rw [List.map_fst_zip (Nat.le_of_eq hargs.symm)] at hadds
    exact .inl ⟨c.state.nextFrame, _, hadds, fun x hx => .parameter hcall hk hargs hx⟩
  | start hc hx hm hl => exact .inl (hnothing (Nat.le_refl _) fun _ _ => Scopes.here?_newFrame ..)

theorem size_cells_le (hsound : Sound p c) (hstep : step p c = .next d) :
    c.state.scopes.cells.size ≤ d.state.scopes.cells.size := by
  rcases step_slots hsound hstep with ⟨f, names, hadds, -⟩ | ⟨y, source, f, names, -, hshares, -⟩
  · exact hadds.cells
  · exact Nat.le_of_eq (congrArg Array.size hshares.cells.symm)

theorem here?_eq_of_step (hsound : Sound p c) (hstep : step p c = .next d)
    (hdeclares : ¬c.Declares p f x) (himports : ∀ y, ¬c.Imports p y f x) :
    d.state.scopes.here? f x = c.state.scopes.here? f x := by
  rcases step_slots hsound hstep with
    ⟨g, names, hadds, hall⟩ | ⟨y, source, g, names, -, hshares, hall⟩
  · apply hadds.kept
    rintro ⟨rfl, hx⟩
    exact hdeclares (hall x hx)
  · apply hshares.kept
    rintro ⟨rfl, hx⟩
    exact himports y (hall x hx)

theorem Change.read?_cases {s : State} {cell : CellId} (h : Change p c s)
    (hcell : cell < c.state.scopes.cells.size) :
    s.scopes.read? cell = c.state.scopes.read? cell ∨
      ∃ v x f stack, c.control = .value v ∧ c.stack = .assign x f :: stack ∧
        c.state.scopes.lookup? f x = some cell := by
  have hread : c.state.scopes.cells = s.scopes.cells →
      s.scopes.read? cell = c.state.scopes.read? cell := by
    intro heq
    rw [Scopes.read?, Scopes.read?, heq]
  cases h with
  | keep => exact .inl rfl
  | host hhost => exact .inl rfl
  | @write x f v stack target hc hstack htarget =>
    by_cases hsame : cell = target
    · exact .inr ⟨v, x, f, stack, hc, hstack, hsame ▸ htarget⟩
    · have hother : (c.state.scopes.write target v).read? cell = c.state.scopes.read? cell := by
        simp [Scopes.write, Scopes.read?, Ne.symm hsame]
      exact .inl hother
  | declare hc => exact .inl (Scopes.read?_bindNew hcell ..)
  | function hc => exact .inl (Scopes.read?_bindNew hcell ..)
  | natives hc => exact .inl (Scopes.read?_importNatives hcell ..)
  | importLoaded hc hy hm hl => exact .inl (hread (Scopes.cells_importNames ..).symm)
  | importEnded hc hstack => exact .inl (hread (Scopes.cells_importNames ..).symm)
  | child hbranches => exact .inl rfl
  | @enter k closure args hcall hk hargs =>
    have hlt : cell < (c.state.scopes.newChild closure.frame).cells.size := hcell
    exact .inl (Scopes.read?_defineAll hlt _)
  | start hc hy hm hl => exact .inl rfl

theorem state_eq_of_assign {v : Value} {stack : List Pending} {cell : CellId}
    (hcontrol : c.control = .value v) (hstack : c.stack = .assign x f :: stack)
    (hlookup : c.state.scopes.lookup? f x = some cell) (hstep : step p c = .next d) :
    d.state = c.state.onScopes (·.write cell v) := by
  obtain ⟨control, waiting, s⟩ := c
  obtain rfl : control = _ := hcontrol
  obtain rfl : waiting = _ := hstack
  have hd : resume p v (.assign x f) stack s = d := Progress.next.inj hstep
  simp only [resume, hlookup] at hd
  rw [← hd]

theorem lt_of_branches {blocks : List Block} (hlexical : Lexical p blocks c)
    (h : c.Branches f) : f < c.state.nextFrame := by
  have hfits : ∀ w ∈ c.stack, w.Fits blocks := hlexical.stack
  cases h with
  | branch hcontrol hstack =>
    rw [hstack] at hfits
    exact hlexical.state.lt_of_blockAt (List.forall_mem_cons.mp hfits).1
  | iteration hcontrol hstack =>
    rw [hstack] at hfits
    exact hlexical.state.lt_of_blockAt (List.forall_mem_cons.mp hfits).1

theorem Change.nested {blocks : List Block} {s : State} (h : Change p c s)
    (hlexical : Lexical p blocks c) (hc : c.state.scopes.Nested) : s.scopes.Nested := by
  cases h with
  | keep => exact hc
  | host hhost => exact hc
  | write hcontrol hstack hcell => exact (Scopes.write_fills _ _ _ 0).nested hc
  | declare hcontrol => exact (Scopes.bindNew_fills _ _ _ _).nested hc
  | function hcontrol => exact (Scopes.bindNew_fills _ _ _ _).nested hc
  | natives hcontrol => exact (Scopes.importNatives_fills _ _ _ _).nested hc
  | importLoaded hcontrol hy hm hl => exact (Scopes.importNames_fills _ _ _ _ _).nested hc
  | importEnded hcontrol hstack => exact (Scopes.importNames_fills _ _ _ _ _).nested hc
  | child hbranches => exact hc.newChild (lt_of_branches hlexical hbranches)
  | enter hcall hk hargs =>
    have hlt := hlexical.state.lt_of_blockAt (hlexical.state.closures _ _ hk)
    exact (Scopes.defineAll_fills _ _ _).nested (hc.newChild hlt)
  | start hcontrol hy hm hl => exact hc.newFrame (List.forall_mem_nil _)

theorem Change.chain_eq {s : State} (h : Change p c s) (hf : f < c.state.nextFrame) :
    s.scopes.chain f = c.state.scopes.chain f := by
  have hne : f ≠ c.state.scopes.nextFrame := Nat.ne_of_lt hf
  cases h with
  | keep => rfl
  | host hhost => rfl
  | write hcontrol hstack hcell => rfl
  | declare hcontrol => exact (Scopes.bindNew_fills _ _ _ _).chain f
  | function hcontrol => exact (Scopes.bindNew_fills _ _ _ _).chain f
  | natives hcontrol => exact (Scopes.importNatives_fills _ _ _ _).chain f
  | importLoaded hcontrol hy hm hl => exact (Scopes.importNames_fills _ _ _ _ _).chain f
  | importEnded hcontrol hstack => exact (Scopes.importNames_fills _ _ _ _ _).chain f
  | child hbranches => exact (Scopes.chain_newFrame _ _ f).trans (if_neg hne)
  | enter hcall hk hargs => exact (Scopes.chain_enter _ _ _ f).trans (if_neg hne)
  | start hcontrol hy hm hl => exact (Scopes.chain_newFrame _ _ f).trans (if_neg hne)

end Machine

end ModuleScript
