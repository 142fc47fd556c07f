import ModuleScript.Proofs.Sharing.Invariants

/-!
Sharing of variables in whole runs. Main statement: `shared_by_imports`, what is declared gets a
cell that no slot has ever held, an import takes the cell of the exporting module under its name,
and nothing else fills a slot. So only calls that are nested can change each other's variables.
-/

namespace ModuleScript

open Machine

/-- The step after `n` steps declares `x` in the frame `f` and gives it `cell`. -/
def DeclaresAt (p : Program) (host : Host) (n : Nat) (f : FrameId) (x : Name) (cell : CellId) :
    Prop :=
  ∃ c d, p.Reaches host n c ∧ step p c = .next d ∧ c.Declares p f x ∧
    d.state.scopes.here? f x = some cell

/--
After `n` steps the body of a function that has been called, a branch or the body of a loop is about
to be run in the frame `f`, which has just been made for it inside the frame `g`: that in which the
function was declared, or that of the statement with the branch or the loop.
-/
inductive BeginsAt (p : Program) (host : Host) : Nat → FrameId → FrameId → Prop
  | call {n : Nat} {c : Config} {k : ClosureId} {closure : Closure} {args : List Value} :
      p.Reaches host n c → c.Calls (.closure k) args → c.state.closures[k]? = some closure →
      args.length = closure.routine.params.length →
      BeginsAt p host (n + 1) c.state.nextFrame closure.frame
  | block {n : Nat} {c : Config} {g : FrameId} :
      p.Reaches host n c → c.Branches g → BeginsAt p host (n + 1) c.state.nextFrame g

/--
What can be relied on about the cells of variables in a run. An assignment is made in the frame of
the block that it is written in, and whatever closures of a call do, they do in frames inside the
frame of the call. So an assignment made through closures of one call or iteration never changes a
variable of another one, unless one of the two is nested inside the other: frames are apart when
neither stands inside the other, as are those of two calls of one closure or of two iterations of a
loop, and any two with equally many frames around them. Native functions are isolated (`Native`):
they neither fill slots nor write cells.
-/
structure SharedByImports (p : Program) (host : Host) : Prop where
  declared : ∀ {n c d f x}, p.Reaches host n c → step p c = .next d → c.Declares p f x →
    ∃ cell, d.state.scopes.here? f x = some cell ∧
      (∀ g y, d.state.scopes.here? g y = some cell → g = f ∧ y = x) ∧
      ∀ k ≤ n, ∀ b, p.Reaches host k b → ∀ g y, b.state.scopes.here? g y ≠ some cell
  imported : ∀ {n c d y f x}, p.Reaches host n c → step p c = .next d → c.Imports p y f x →
    ∃ top cell, c.state.loaded.find? y = some top ∧ c.state.scopes.here? top x = some cell ∧
      d.state.scopes.here? f x = some cell
  kept : ∀ {n c d f x}, p.Reaches host n c → step p c = .next d → ¬c.Declares p f x →
    (∀ y, ¬c.Imports p y f x) → d.state.scopes.here? f x = c.state.scopes.here? f x
  named : ∀ {n c f g x y cell}, p.Reaches host n c → c.state.scopes.here? f x = some cell →
    c.state.scopes.here? g y = some cell → x = y
  distinct : ∀ {k k' n n' f f' g g' x x' cell cell'}, BeginsAt p host k f g →
    BeginsAt p host k' f' g' → k ≠ k' → DeclaresAt p host n f x cell →
    DeclaresAt p host n' f' x' cell' → f ≠ f' ∧ cell ≠ cell'
  unshared : ∀ {k n m f g h x y cell c}, BeginsAt p host k f g → DeclaresAt p host n f x cell →
    n < m → p.Reaches host m c → c.state.scopes.here? h y = some cell → h = f ∧ y = x
  changed : ∀ {k n m f g x cell c d}, BeginsAt p host k f g → DeclaresAt p host n f x cell →
    n < m → p.Reaches host m c → step p c = .next d →
    d.state.scopes.read? cell ≠ c.state.scopes.read? cell →
      ∃ v h stack, c.control = .value v ∧ c.stack = .assign x h :: stack ∧
        f ∈ c.state.scopes.chain h
  siblings : ∀ {k k' m f f' g c}, BeginsAt p host k f g → BeginsAt p host k' f' g → k ≠ k' →
    k ≤ m → k' ≤ m → p.Reaches host m c → c.state.scopes.Apart f f'
  apart : ∀ {m f f' c}, p.Reaches host m c → f ≠ f' →
    (c.state.scopes.chain f).length = (c.state.scopes.chain f').length →
      c.state.scopes.Apart f f'
  assigned : ∀ {k n m f g h a a' x y cell v stack c d}, BeginsAt p host k f g →
    DeclaresAt p host n f x cell → n < m → p.Reaches host m c → step p c = .next d →
    c.control = .value v → c.stack = .assign y h :: stack → a ∈ c.state.scopes.chain f →
    a' ∈ c.state.scopes.chain h → c.state.scopes.Apart a a' →
      d.state.scopes.read? cell = c.state.scopes.read? cell

variable {p : Program} {host : Host} {n m k : Nat} {c d : Config} {f g : FrameId} {x y : Name}
  {cell : CellId}

theorem BeginsAt.spec (h : BeginsAt p host n f g) :
    ∃ k c d bindings, n = k + 1 ∧ p.Reaches host k c ∧ p.Reaches host (k + 1) d ∧
      f = c.state.nextFrame ∧ g < f ∧ d.state = c.state.onScopes (·.enter g bindings) := by
  obtain ⟨blocks, hblocks⟩ := exists_blocksOf p host
  cases h with
  | @call k c _ closure args hc hcall hk hargs =>
    have hscoped := (hblocks.lexical k c hc).state
    have hlt := hscoped.lt_of_blockAt (hscoped.closures _ closure hk)
    obtain ⟨stack, hstep⟩ := step_of_calls (p := p) hcall
    simp only [Machine.call, hk, callClosure, if_pos hargs] at hstep
    exact ⟨k, c, _, _, rfl, hc, Program.reaches_succ_iff.mpr ⟨c, hc, hstep⟩, rfl, hlt, rfl⟩
  | @block k c _ hc hbranches =>
    have hlt := lt_of_branches (hblocks.lexical k c hc) hbranches
    obtain ⟨d, hstep, hd⟩ := step_of_branches (p := p) hbranches
    exact ⟨k, c, d, [], rfl, hc, Program.reaches_succ_iff.mpr ⟨c, hc, hstep⟩, rfl, hlt, hd⟩

theorem BeginsAt.inside (h : BeginsAt p host k f g) (hkm : k ≤ m) (hc : p.Reaches host m c) :
    f < c.state.nextFrame ∧ c.state.scopes.chain f = f :: c.state.scopes.chain g := by
  obtain ⟨i, b, d, bindings, rfl, hb, hd, rfl, hlt, hstate⟩ := h.spec
  have hframes : d.state.nextFrame = b.state.nextFrame + 1 := by
    rw [hstate]
    exact Scopes.nextFrame_enter _ _ _
  have hchain : d.state.scopes.chain b.state.nextFrame =
      b.state.nextFrame :: d.state.scopes.chain g := by
    have hnew : (b.state.scopes.enter g bindings).chain b.state.nextFrame =
        b.state.nextFrame :: b.state.scopes.chain g :=
      (Scopes.chain_enter _ _ _ _).trans (if_pos rfl)
    have hold : (b.state.scopes.enter g bindings).chain g = b.state.scopes.chain g :=
      (Scopes.chain_enter _ _ _ g).trans (if_neg (Nat.ne_of_lt hlt))
    rw [hstate]
    exact hnew.trans (congrArg _ hold.symm)
  refine hc.later (P := fun _ c => b.state.nextFrame < c.state.nextFrame ∧
    c.state.scopes.chain b.state.nextFrame = b.state.nextFrame :: c.state.scopes.chain g) hkm hd
    ⟨Nat.lt_of_lt_of_eq (Nat.lt_succ_self _) hframes.symm, hchain⟩ ?_
  intro j c e _ _ ih hstep
  have hchange := step_change hstep
  refine ⟨Nat.lt_of_lt_of_le ih.1 hchange.nextFrame_le, ?_⟩
  rw [hchange.chain_eq ih.1, hchange.chain_eq (Nat.lt_trans hlt ih.1)]
  exact ih.2

theorem BeginsAt.ne {f' g' : FrameId} (h : BeginsAt p host k f g) (h' : BeginsAt p host n f' g')
    (hkn : k ≠ n) : f ≠ f' := by
  have hnot {k n : Nat} {f g g' : FrameId} (h : BeginsAt p host k f g)
      (h' : BeginsAt p host n f g') : ¬k < n := by
    intro hlt
    obtain ⟨i, c, -, -, rfl, hc, -, rfl, -, -⟩ := h'.spec
    exact Nat.lt_irrefl _ (h.inside (Nat.le_of_lt_succ hlt) hc).1
  rintro rfl
  rcases Nat.lt_or_gt_of_ne hkn with hlt | hgt
  · exact hnot h h' hlt
  · exact hnot h' h hgt

/-- The frames of calls, branches and iterations are not those of modules. -/
theorem BeginsAt.ne_loaded (h : BeginsAt p host k f g) (hc : p.Reaches host n c) (x : Name) :
    c.state.loaded.find? x ≠ some f := by
  have hinside {m : Nat} {c : Config} (hkm : k ≤ m) (hc : p.Reaches host m c) :
      f < c.state.nextFrame :=
    (h.inside hkm hc).1
  obtain ⟨i, b, d, bindings, rfl, hb, hd, rfl, -, hstate⟩ := h.spec
  have hbefore {m : Nat} {c : Config} (hm : m ≤ i) (hc : p.Reaches host m c) (x : Name) :
      c.state.loaded.find? x ≠ some b.state.nextFrame := by
    intro hx
    have hle := nextFrame_le_of_reaches hm hc hb
    exact Nat.not_lt_of_le hle (lt_nextFrame_of_loaded hc hx)
  rcases Nat.lt_or_ge n (i + 1) with hn | hn
  · exact hbefore (Nat.le_of_lt_succ hn) hc x
  have hstart (x : Name) : d.state.loaded.find? x ≠ some b.state.nextFrame := by
    rw [hstate]
    exact hbefore (Nat.le_refl i) hb x
  refine hc.later (P := fun _ c => ∀ x, c.state.loaded.find? x ≠ some b.state.nextFrame) hn hd
    hstart ?_ x
  intro m c e him hc ih hstep x hx
  rcases (step_change hstep).loaded_cases hx with hold | hnew
  · exact ih x hold
  · -- a module that is started now gets a younger frame
    obtain ⟨-, -, -, -, -, -, -, -, hsame⟩ := hnew
    exact Nat.ne_of_lt (hinside him hc) hsame

theorem DeclaresAt.spec (h : DeclaresAt p host n f x cell) :
    ∃ c d names, p.Reaches host n c ∧ p.Reaches host (n + 1) d ∧ x ∈ names ∧
      Scopes.Adds f names c.state.scopes d.state.scopes ∧
      d.state.scopes.here? f x = some cell := by
  obtain ⟨c, d, hc, hstep, hdeclares, hcell⟩ := h
  obtain ⟨names, hx, hadds⟩ := adds_of_declares (sound_of_reaches hc) hdeclares hstep
  exact ⟨c, d, names, hc, Program.reaches_succ_iff.mpr ⟨c, hc, hstep⟩, hx, hadds, hcell⟩

theorem DeclaresAt.here?_ne (h : DeclaresAt p host n f x cell) (hkn : k ≤ n)
    (hc : p.Reaches host k c) : c.state.scopes.here? g y ≠ some cell := by
  intro hy
  obtain ⟨b, d, names, hb, -, hx, hadds, hcell⟩ := h.spec
  obtain ⟨cell', hcell', hge, -⟩ := hadds.fresh x hx
  obtain rfl : cell = cell' := Option.some.inj (hcell.symm.trans hcell')
  have hlt : cell < c.state.scopes.cells.size := (sound_of_reaches hc).bounded g y cell hy
  exact Nat.not_lt_of_le (Nat.le_trans (size_cells_le_of_reaches hkn hc hb) hge) hlt

theorem DeclaresAt.unique {f' : FrameId} {x' : Name} (h : DeclaresAt p host n f x cell)
    (h' : DeclaresAt p host m f' x' cell) : f' = f ∧ x' = x := by
  have hnot {n m : Nat} {f f' : FrameId} {x x' : Name} (h : DeclaresAt p host n f x cell)
      (h' : DeclaresAt p host m f' x' cell) : ¬n < m := by
    intro hnm
    obtain ⟨-, d, -, -, hd, -, -, hcell⟩ := h.spec
    exact h'.here?_ne hnm hd hcell
  have hle := Nat.le_of_not_lt (hnot h' h)
  have hge := Nat.le_of_not_lt (hnot h h')
  obtain rfl : n = m := Nat.le_antisymm hle hge
  obtain ⟨c, d, names, hc, hd, hx, hadds, hcell⟩ := h.spec
  obtain ⟨-, d', -, -, hd', -, -, hcell'⟩ := h'.spec
  obtain rfl := hd.unique hd'
  exact hadds.unique (sound_of_reaches hc).bounded hx hcell hcell'

theorem DeclaresAt.unshared (h : DeclaresAt p host n f x cell) (hbegins : BeginsAt p host k f g)
    {a : FrameId} (hnm : n < m) (hc : p.Reaches host m c)
    (hy : c.state.scopes.here? a y = some cell) : a = f ∧ y = x := by
  obtain ⟨b, d, names, hb, hd, hx, hadds, hcell⟩ := h.spec
  have hbounded := (sound_of_reaches hb).bounded
  refine hc.later (P := fun _ c => ∀ a y, c.state.scopes.here? a y = some cell → a = f ∧ y = x)
    hnm hd (fun a y hy => hadds.unique hbounded hx hcell hy) ?_ a y hy
  intro i c e hi hc ih hstep a y hy
  have hsound := sound_of_reaches hc
  rcases step_slots hsound hstep with ⟨f', names', hadds', -⟩ | hshared
  · by_cases hslot : a = f' ∧ y ∈ names'
    · -- the cells that are new now are younger
      obtain ⟨rfl, hmem⟩ := hslot
      obtain ⟨cell', hcell', hge, -⟩ := hadds'.fresh y hmem
      obtain rfl : cell = cell' := Option.some.inj (hy.symm.trans hcell')
      have hlt : cell < d.state.scopes.cells.size := (sound_of_reaches hd).bounded f x cell hcell
      have hle := size_cells_le_of_reaches hi hd hc
      exact absurd hge (Nat.not_le_of_lt (Nat.lt_of_lt_of_le hlt hle))
    · exact ih a y (hadds'.kept a y hslot ▸ hy)
  · obtain ⟨z, source, f', names', hl, hshares, -⟩ := hshared
    rcases hshares.exists_here? hy with hold | ⟨-, -, hsource⟩
    · exact ih a y hold
    · -- only the top frames of modules are imported from
      obtain ⟨rfl, -⟩ := ih source y hsource
      exact absurd hl (hbegins.ne_loaded hc z)

theorem DeclaresAt.changed (h : DeclaresAt p host n f x cell) (hbegins : BeginsAt p host k f g)
    (hnm : n < m) (hc : p.Reaches host m c) (hstep : step p c = .next d)
    (hne : d.state.scopes.read? cell ≠ c.state.scopes.read? cell) :
    ∃ v a stack, c.control = .value v ∧ c.stack = .assign x a :: stack ∧
      f ∈ c.state.scopes.chain a := by
  obtain ⟨-, b, -, -, hb, -, -, hcell⟩ := h.spec
  have hlt : cell < c.state.scopes.cells.size :=
    Nat.lt_of_lt_of_le ((sound_of_reaches hb).bounded f x cell hcell)
      (size_cells_le_of_reaches hnm hb hc)
  rcases (step_change hstep).read?_cases hlt with hsame | hassign
  · exact absurd hsame hne
  · obtain ⟨v, y, a, stack, hcontrol, hstack, hlookup⟩ := hassign
    obtain ⟨holder, hmem, hholds⟩ := List.exists_of_findSome?_eq_some hlookup
    obtain ⟨rfl, rfl⟩ := h.unshared hbegins hnm hc hholds
    exact ⟨v, a, stack, hcontrol, hstack, hmem⟩

theorem shared_by_imports (p : Program) (host : Host) : SharedByImports p host := by
  constructor
  · intro n c d f x hc hstep hdeclares
    have hsound := sound_of_reaches hc
    obtain ⟨names, hx, hadds⟩ := adds_of_declares hsound hdeclares hstep
    obtain ⟨cell, hcell, -, -⟩ := hadds.fresh x hx
    have hat : DeclaresAt p host n f x cell := ⟨c, d, hc, hstep, hdeclares, hcell⟩
    refine ⟨cell, hcell, fun g y hy => hadds.unique hsound.bounded hx hcell hy, ?_⟩
    intro k hkn b hb g y
    exact hat.here?_ne hkn hb
  · intro n c d y f x hc hstep himports
    obtain ⟨top, names, hl, hx, hshares⟩ := shares_of_imports (sound_of_reaches hc) himports hstep
    obtain ⟨cell, htop, hcell⟩ := hshares.shared x hx
    exact ⟨top, cell, hl, htop, hcell⟩
  · intro n c d f x hc hstep hdeclares himports
    exact here?_eq_of_step (sound_of_reaches hc) hstep hdeclares himports
  · intro n c f g x y cell hc hx hy
    exact namedOnce_of_reaches hc f g x y cell hx hy
  · intro k k' n n' f f' g g' x x' cell cell' hbegins hbegins' hk hat hat'
    have hne : f ≠ f' := hbegins.ne hbegins' hk
    refine ⟨hne, ?_⟩
    rintro rfl
    exact hne (hat'.unique hat).1
  · intro k n m f g h x y cell c hbegins hat hnm hc hy
    exact hat.unshared hbegins hnm hc hy
  · intro k n m f g x cell c d hbegins hat hnm hc hstep hne
    exact hat.changed hbegins hnm hc hstep hne
  · intro k k' m f f' g c hbegins hbegins' hk hkm hkm' hc
    have hne : f ≠ f' := hbegins.ne hbegins' hk
    have hlength : (c.state.scopes.chain f).length = (c.state.scopes.chain f').length := by
      rw [(hbegins.inside hkm hc).2, (hbegins'.inside hkm' hc).2]
      rfl
    exact (nested_of_reaches hc).apart_of_length_eq hne hlength
  · intro m f f' c hc hne hlength
    exact (nested_of_reaches hc).apart_of_length_eq hne hlength
  · intro k n m f g h a a' x y cell v stack c d hbegins hat hnm hc hstep _ hstack ha ha' hapart
    by_contra hne
    obtain ⟨v', h', stack', -, hstack', hmem⟩ := hat.changed hbegins hnm hc hstep hne
    cases hstack.symm.trans hstack'
    -- the assignment is made inside `f`, so inside both `a` and `a'`
    have hnested := nested_of_reaches hc
    have hinside : a ∈ c.state.scopes.chain h := (hnested h f hmem).1.subset ha
    exact hnested.not_apart hinside ha' hapart

/-! Calls inside one another -/

/-- The step after `n` steps calls a function, and its body is run in the new frame `f`. -/
def CalledAt (p : Program) (host : Host) (n : Nat) (f : FrameId) : Prop :=
  ∃ c k closure args, p.Reaches host n c ∧ c.Calls (.closure k) args ∧
    c.state.closures[k]? = some closure ∧ args.length = closure.routine.params.length ∧
    c.state.nextFrame = f

/--
What closures of one call assign never changes a variable of another call. This is the clause
`assigned` without the condition that the two calls are apart.
-/
def CallsKeepApart (p : Program) (host : Host) : Prop :=
  ∀ {k k' n m f f' h x y cell v stack c d}, CalledAt p host k f → CalledAt p host k' f' → k ≠ k' →
    DeclaresAt p host n f x cell → n < m → p.Reaches host m c → step p c = .next d →
    c.control = .value v → c.stack = .assign y h :: stack → f' ∈ c.state.scopes.chain h →
      d.state.scopes.read? cell = c.state.scopes.read? cell

/-- The body of a function that calls an inner one, whose closure assigns to the outer variable. -/
def nestedBody : List Stmt :=
  [.declare "x", .assign "x" (.number 1),
    .function "inner" ⟨[],
      [.function "g" ⟨[], [.assign "x" (.number 2)]⟩, .eval (.call (.var "g") []), .ret none]⟩,
    .eval (.call (.var "inner") []), .ret (some (.var "x"))]

def idleHost : Host := ⟨.empty, ⟨"", [], fun _ => 0, 0⟩⟩

def nestedCalls : Program where
  modules := [⟨"Main",
    [.function "outer" ⟨[], nestedBody⟩, .ret (some (.call (.var "outer") []))], []⟩]
  natives := ∅

theorem exists_reaches {α : Type} {view : Config → α} {a : α}
    (h : ((p.start host).toOption.bind (after p n)).map view = some a) :
    ∃ c, p.Reaches host n c ∧ view c = a := by
  obtain ⟨c, hc, ha⟩ := Option.map_eq_some_iff.mp h
  obtain ⟨c₀, hstart, hafter⟩ := Option.bind_eq_some_iff.mp hc
  refine ⟨c, ⟨c₀, ?_, hafter⟩, ha⟩
  cases hp : p.start host with
  | error e => simp [hp, Except.toOption] at hstart
  | ok c₁ => simpa [hp, Except.toOption] using hstart

theorem exists_step {α β : Type} {view : Config → α} {view' : Config → β} {a : α} {b : β}
    (h : ((p.start host).toOption.bind (after p n)).map view = some a)
    (h' : ((p.start host).toOption.bind (after p (n + 1))).map view' = some b) :
    ∃ c d, p.Reaches host n c ∧ step p c = .next d ∧ view c = a ∧ view' d = b := by
  obtain ⟨c, hc, ha⟩ := exists_reaches h
  obtain ⟨d, hd, hb⟩ := exists_reaches h'
  obtain ⟨c', hc', hstep⟩ := Program.reaches_succ_iff.mp hd
  obtain rfl := hc.unique hc'
  exact ⟨c, d, hc, hstep, ha, hb⟩

theorem calledAt_of_closure {k : ClosureId}
    (h : ((p.start host).toOption.bind (after p n)).map (fun c =>
        (c.control, c.stack.head?, c.state.closures[k]?.map (·.routine.params),
          c.state.nextFrame)) =
      some (.value (.closure k), some (.callee [] g), some [], f)) : CalledAt p host n f := by
  obtain ⟨⟨control, stack, s⟩, hc, hview⟩ := exists_reaches h
  simp only [Prod.mk.injEq, List.head?_eq_some_iff, Option.map_eq_some_iff] at hview
  obtain ⟨rfl, ⟨rest, rfl⟩, ⟨closure, hclosure, hparams⟩, rfl⟩ := hview
  have hargs : ([] : List Value).length = closure.routine.params.length := by
    rw [hparams, List.length_nil, List.length_nil]
  exact ⟨_, k, closure, [], hc, .noArguments rfl, hclosure, hargs, rfl⟩

theorem not_callsKeepApart_nestedCalls : ¬CallsKeepApart nestedCalls idleHost := by
  intro hapart
  have houter : CalledAt nestedCalls idleHost 5 1 := by
    apply calledAt_of_closure (k := 0) (g := 0)
    rfl
  have hinner : CalledAt nestedCalls idleHost 17 2 := by
    apply calledAt_of_closure (k := 1) (g := 1)
    rfl
  have hlet : DeclaresAt nestedCalls idleHost 6 1 "x" 1 := by
    obtain ⟨c, d, hc, hstep, hcontrol, hcell⟩ : ∃ c d, nestedCalls.Reaches idleHost 6 c ∧
        step nestedCalls c = .next d ∧ c.control = .exec nestedBody 1 ∧
          d.state.scopes.here? 1 "x" = some 1 := exists_step (by rfl) (by rfl)
    exact ⟨c, d, hc, hstep, .declaration hcontrol, hcell⟩
  -- the closure of the inner call assigns in a frame inside that of the inner call
  obtain ⟨c, d, hc, hstep, hview, hafter⟩ : ∃ c d, nestedCalls.Reaches idleHost 26 c ∧
      step nestedCalls c = .next d ∧
        (c.control, c.stack.head?, c.state.scopes.chain 3, c.state.scopes.read? 1) =
          (.value (.number 2), some (.assign "x" 3), [3, 2, 1, 0], some (.number 1)) ∧
        d.state.scopes.read? 1 = some (.number 2) := exists_step (by rfl) (by rfl)
  simp only [Prod.mk.injEq, List.head?_eq_some_iff] at hview
  obtain ⟨hcontrol, ⟨stack, hstack⟩, hchain, hbefore⟩ := hview
  have hinside : 2 ∈ c.state.scopes.chain 3 := hchain ▸ by decide
  have hkept := hapart houter hinner (by decide) hlet (by decide) hc hstep hcontrol hstack hinside
  rw [hafter, hbefore] at hkept
  exact absurd hkept (by decide)

/-- What the inner call has assigned is what the outer one returns. -/
example : (nestedCalls.run idleHost 50).map (·.result) = some (.ok (.number 2)) := by
  rfl

end ModuleScript
