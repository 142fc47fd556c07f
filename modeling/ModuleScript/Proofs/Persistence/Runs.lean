import ModuleScript.Native
import ModuleScript.Proofs.Machine.Faults
import ModuleScript.Proofs.Persistence.Store
import ModuleScript.Proofs.Sharing.Runs

/-!
What is never lost in a run. Main statement: `nothing_lost`, frames, names, contents of cells,
fields of objects and registered modules stay, from any moment of a run to any later one.
-/

namespace ModuleScript

open Machine

/-- A native function takes no object and no field of an object away. -/
def Native.KeepsFields (native : Native) : Prop :=
  ∀ (args : List Value) (host : Host), host.heap.Retains (native.run args host).2.heap

structure State.Retains (s t : State) : Prop where
  scopes : s.scopes.Retains t.scopes
  heap : s.host.heap.Retains t.host.heap
  modules : ∀ x f, s.loaded.find? x = some f → t.loaded.find? x = some f

def Config.Assigns (c : Config) (cell : CellId) : Prop :=
  ∃ v x f stack, c.control = .value v ∧ c.stack = .assign x f :: stack ∧
    c.state.scopes.lookup? f x = some cell

/-- The step after `n` steps is a `let` of `x` in the frame `f`, and makes the cell. -/
def LetAt (p : Program) (host : Host) (n : Nat) (f : FrameId) (x : Name) (cell : CellId) : Prop :=
  ∃ c d rest, p.Reaches host n c ∧ step p c = .next d ∧ c.control = .exec (.declare x :: rest) f ∧
    cell = c.state.scopes.cells.size ∧ d.state.scopes.here? f x = some cell

/--
What can be relied on from any moment of a run to any later one. Frames and cells are kept because
native functions are isolated (`Native`), objects because they keep fields (`Native.KeepsFields`).
-/
structure NothingLost (p : Program) (host : Host) : Prop where
  retained : ∀ {k n c d}, k ≤ n → p.Reaches host k c → p.Reaches host n d →
    c.state.Retains d.state
  resolved : ∀ {k n c d f x}, k ≤ n → p.Reaches host k c → p.Reaches host n d →
    (c.state.scopes.lookup? f x).isSome → (d.state.scopes.lookup? f x).isSome
  undefined : ∀ {n c d x}, p.Reaches host n c → step p c = .next d →
    d.control = .fault (.notInScope x) → ∃ f, c.LooksUp p f x ∧
      ∀ k ≤ n, ∀ b, p.Reaches host k b → b.state.scopes.lookup? f x = none
  unassigned : ∀ {n c d x}, p.Reaches host n c → step p c = .next d →
    d.control = .fault (.unassigned x) → ∃ f cell, c.LooksUp p f x ∧
      c.state.scopes.lookup? f x = some cell ∧
      ∃ k < n, (∃ g, LetAt p host k g x cell) ∧
        ∀ m, k < m → m < n → ∀ b, p.Reaches host m b → ¬b.Assigns cell

variable {p : Program} {host : Host} {n k : Nat} {c d : Config} {f : FrameId} {x : Name}
  {cell : CellId}

section Steps

theorem Machine.HostChange.retains {before after : Host}
    (hnatives : ∀ x native, p.natives.find? x = some native → native.KeepsFields)
    (h : HostChange p before after) : before.heap.Retains after.heap := by
  cases h with
  | alloc fields => exact Heap.alloc_retains before.heap fields
  | set o x v => exact Heap.set_retains before.heap o x v
  | @native x native args hx => exact hnatives x native hx args before

theorem Machine.Change.declares_or_supplies {s : State} (h : Change p c s) :
    (∃ x rest f, c.control = .exec (.declare x :: rest) f ∧
        s = c.state.onScopes (·.declare f x)) ∨ c.state.scopes.Supplies s.scopes := by
  cases h with
  | keep => exact .inr (Scopes.supplies_refl _)
  | host hhost => exact .inr (Scopes.supplies_refl _)
  | write hc hstack hcell => exact .inr (Scopes.write_supplies _ _ _)
  | declare hc => exact .inl ⟨_, _, _, hc, rfl⟩
  | function hc => exact .inr (Scopes.define_supplies _ _ _ _)
  | natives hc => exact .inr (Scopes.importNatives_supplies _ _ _ _)
  | importLoaded hc hx hm hl => exact .inr (Scopes.importNames_supplies _ _ _ _ _)
  | importEnded hc hstack => exact .inr (Scopes.importNames_supplies _ _ _ _ _)
  | child hbranches => exact .inr (Scopes.newFrame_supplies _ _)
  | enter hcall hk hargs => exact .inr (Scopes.enter_supplies _ _ _)
  | start hc hx hm hl => exact .inr (Scopes.newFrame_supplies _ _)

theorem Machine.Change.retains_scopes {s : State} (h : Change p c s) :
    c.state.scopes.Retains s.scopes := by
  rcases h.declares_or_supplies with ⟨x, rest, f, -, rfl⟩ | hsupplies
  · exact Scopes.bindNew_retains _ f x none
  · exact hsupplies.toRetains

theorem Machine.Change.retains_heap {s : State}
    (hnatives : ∀ x native, p.natives.find? x = some native → native.KeepsFields)
    (h : Change p c s) : c.state.host.heap.Retains s.host.heap := by
  cases h with
  | host hhost => exact hhost.retains hnatives
  | _ => exact Heap.retains_refl _

theorem Machine.Change.chain_loaded {s : State} (h : Change p c s)
    (hc : ∀ x f, c.state.loaded.find? x = some f →
      f < c.state.nextFrame ∧ c.state.scopes.chain f = [f])
    (hx : s.loaded.find? x = some f) : s.scopes.chain f = [f] := by
  have hold (hx : c.state.loaded.find? x = some f) : s.scopes.chain f = [f] := by
    obtain ⟨hlt, hchain⟩ := hc x f hx
    rw [h.chain_eq hlt, hchain]
  cases h with
  | @start y m names rest g hcontrol hnative hm hy =>
    rw [State.startModule, Table.find?_insert] at hx
    split at hx
    · obtain rfl := Option.some.inj hx
      exact (Scopes.chain_newFrame _ _ _).trans (if_pos rfl)
    · exact hold hx
  | _ => exact hold hx

theorem isSome_read?_of_assigns (hbounded : c.state.scopes.Bounded) (h : c.Assigns cell)
    (hstep : step p c = .next d) : (d.state.scopes.read? cell).isSome := by
  obtain ⟨v, x, f, stack, hcontrol, hstack, hlookup⟩ := h
  obtain ⟨g, -, hheld⟩ := List.exists_of_findSome?_eq_some hlookup
  have hlt : cell < c.state.scopes.cells.size := hbounded g x cell hheld
  have hread : (c.state.scopes.write cell v).read? cell = some v := by
    rw [Scopes.read?_write hlt, if_pos rfl]
  rw [state_eq_of_assign hcontrol hstack hlookup hstep]
  exact Option.isSome_iff_exists.mpr ⟨v, hread⟩

end Steps

theorem retains_of_reaches
    (hnatives : ∀ x native, p.natives.find? x = some native → native.KeepsFields) (hkn : k ≤ n)
    (hc : p.Reaches host k c) (hd : p.Reaches host n d) : c.state.Retains d.state := by
  have hstart : c.state.Retains c.state :=
    ⟨Scopes.retains_refl _, Heap.retains_refl _, fun _ _ => id⟩
  refine hd.later (P := fun _ d => c.state.Retains d.state) hkn hc hstart ?_
  intro m b e _ _ ih hstep
  have hchange := step_change hstep
  refine ⟨ih.scopes.trans hchange.retains_scopes, ih.heap.trans (hchange.retains_heap hnatives), ?_⟩
  intro x f hx
  exact hchange.find?_loaded (ih.modules x f hx)

theorem chain_of_loaded (hc : p.Reaches host n c) (hx : c.state.loaded.find? x = some f) :
    c.state.scopes.chain f = [f] := by
  refine hc.induction (P := fun _ c => ∀ x f, c.state.loaded.find? x = some f →
    c.state.scopes.chain f = [f]) ?_ ?_ x f hx
  · intro c hstart x f hx
    obtain ⟨main, -, rfl⟩ := Program.start_eq_ok_iff.mp hstart
    rw [State.startModule, Table.find?_insert] at hx
    split at hx
    · obtain rfl := Option.some.inj hx
      exact (Scopes.chain_newFrame _ _ _).trans (if_pos rfl)
    · cases hx
  · intro n c d hc ih hstep x f hx
    refine (step_change hstep).chain_loaded ?_ hx
    intro y g hy
    exact ⟨lt_nextFrame_of_loaded hc hy, ih y g hy⟩

theorem chain_of_binds (hc : p.Reaches host n c) {source : FrameId} {exports names : List Name}
    (h : c.Binds p source exports names) : c.state.scopes.chain source = [source] := by
  cases h with
  | loaded hcontrol hx hm hl => exact chain_of_loaded hc hl
  | ended hcontrol hstack =>
    have hw : .imports source exports names _ ∈ c.stack := hstack ▸ List.mem_cons_self
    obtain ⟨x, m, -, -, hl⟩ := registered_of_reaches hc hw
    exact chain_of_loaded hc hl

theorem DeclaresAt.name_eq {g : FrameId} {y : Name} (h : DeclaresAt p host k f x cell) (hkn : k < n)
    (hc : p.Reaches host n c) (hy : c.state.scopes.here? g y = some cell) : y = x := by
  obtain ⟨b, d, names, hb, hd, hx, hadds, hcell⟩ := h.spec
  have hlt : cell < d.state.scopes.cells.size := (sound_of_reaches hd).bounded f x cell hcell
  refine hc.later (P := fun _ c => ∀ g y, c.state.scopes.here? g y = some cell → y = x) hkn hd
    ?_ ?_ g y hy
  · intro g y hy
    exact (hadds.unique (sound_of_reaches hb).bounded hx hcell hy).2
  · intro m c e hm hc ih hstep g y hy
    rcases step_slots (sound_of_reaches hc) hstep with ⟨f', names', hadds', -⟩ | hshared
    · by_cases hslot : g = f' ∧ y ∈ names'
      · -- the cells that are new now are younger
        obtain ⟨rfl, hmem⟩ := hslot
        obtain ⟨cell', hcell', hge, -⟩ := hadds'.fresh y hmem
        obtain rfl : cell = cell' := Option.some.inj (hy.symm.trans hcell')
        have hle := size_cells_le_of_reaches hm hd hc
        exact absurd hge (Nat.not_le_of_lt (Nat.lt_of_lt_of_le hlt hle))
      · exact ih g y (hadds'.kept g y hslot ▸ hy)
    · obtain ⟨z, source, f', names', -, hshares, -⟩ := hshared
      rcases hshares.exists_here? hy with hold | ⟨-, -, hsource⟩
      · exact ih g y hold
      · exact ih source y hsource

theorem LetAt.declaresAt (h : LetAt p host n f x cell) : DeclaresAt p host n f x cell := by
  obtain ⟨c, d, rest, hc, hstep, hcontrol, -, hcell⟩ := h
  exact ⟨c, d, hc, hstep, .declaration hcontrol, hcell⟩

theorem exists_letAt_of_new (hc : p.Reaches host n c) (hstep : step p c = .next d)
    (hnew : c.state.scopes.cells.size ≤ cell) (hcell : cell < d.state.scopes.cells.size)
    (hempty : d.state.scopes.read? cell = none) : ∃ g x, LetAt p host n g x cell := by
  rcases (step_change hstep).declares_or_supplies with ⟨x, rest, f, hcontrol, hstate⟩ | hsupplies
  · have hf : f < c.state.scopes.nextFrame := (sound_of_reaches hc).control _ f hcontrol
    have hsize : cell < c.state.scopes.cells.size + 1 := by
      rw [hstate] at hcell
      exact Nat.lt_of_lt_of_eq hcell (Scopes.size_cells_bindNew _ f x none)
    have heq : cell = c.state.scopes.cells.size := Nat.le_antisymm (Nat.le_of_lt_succ hsize) hnew
    have hheld : d.state.scopes.here? f x = some cell := by
      rw [hstate, heq]
      exact (Scopes.here?_bindNew hf x none f x).trans (if_pos ⟨rfl, rfl⟩)
    exact ⟨f, x, c, d, rest, hc, hstep, hcontrol, heq, hheld⟩
  · rcases hsupplies.filled cell hcell with hsome | hold
    · rw [hempty] at hsome
      cases hsome
    · exact absurd hold (Nat.not_lt_of_le hnew)

/-- A cell without content was made by a `let`, and nothing has been assigned to it since. -/
theorem exists_letAt_of_read?_eq_none (hc : p.Reaches host n c)
    (hcell : cell < c.state.scopes.cells.size) (hempty : c.state.scopes.read? cell = none) :
    ∃ k < n, (∃ g x, LetAt p host k g x cell) ∧
      ∀ m, k < m → m < n → ∀ b, p.Reaches host m b → ¬b.Assigns cell := by
  refine hc.induction (P := fun n c => ∀ cell, cell < c.state.scopes.cells.size →
    c.state.scopes.read? cell = none → ∃ k < n, (∃ g x, LetAt p host k g x cell) ∧
      ∀ m, k < m → m < n → ∀ b, p.Reaches host m b → ¬b.Assigns cell) ?_ ?_ cell hcell hempty
  · intro c hstart cell hcell
    obtain ⟨main, -, rfl⟩ := Program.start_eq_ok_iff.mp hstart
    exact absurd hcell (Nat.not_lt_zero cell)
  · intro n c d hc ih hstep cell hcell hempty
    rcases Nat.lt_or_ge cell c.state.scopes.cells.size with hold | hnew
    · have hnot : ¬(d.state.scopes.read? cell).isSome := by
        rw [hempty]
        exact Bool.false_ne_true
      -- it was empty before, and this step does not assign to it
      have hbefore : c.state.scopes.read? cell = none := by
        rw [← Option.not_isSome_iff_eq_none]
        exact fun hsome => hnot ((step_change hstep).retains_scopes.cells cell hsome)
      obtain ⟨k, hk, hlet, hnone⟩ := ih cell hold hbefore
      refine ⟨k, Nat.lt_succ_of_lt hk, hlet, ?_⟩
      intro m hkm hmn b hb hassigns
      rcases Nat.lt_succ_iff_lt_or_eq.mp hmn with hlt | rfl
      · exact hnone m hkm hlt b hb hassigns
      · obtain rfl := hb.unique hc
        exact hnot (isSome_read?_of_assigns (sound_of_reaches hc).bounded hassigns hstep)
    · have hlet := exists_letAt_of_new hc hstep hnew hcell hempty
      refine ⟨n, Nat.lt_succ_self n, hlet, ?_⟩
      intro m hnm hmn
      exact absurd hmn (Nat.not_lt_of_le hnm)

/-- However long a run is, and however it ends. -/
theorem nothing_lost (p : Program) (host : Host)
    (hnatives : ∀ x native, p.natives.find? x = some native → native.KeepsFields) :
    NothingLost p host := by
  have hresolved {k n : Nat} {c d : Config} {f : FrameId} {x : Name} (hkn : k ≤ n)
      (hc : p.Reaches host k c) (hd : p.Reaches host n d)
      (hx : (c.state.scopes.lookup? f x).isSome) : (d.state.scopes.lookup? f x).isSome :=
    (retains_of_reaches hnatives hkn hc hd).scopes.isSome_lookup? hx
  have hnever {n : Nat} {c : Config} {f : FrameId} {x : Name} (hc : p.Reaches host n c)
      (hnone : c.state.scopes.lookup? f x = none) :
      ∀ k ≤ n, ∀ b, p.Reaches host k b → b.state.scopes.lookup? f x = none := by
    intro k hkn b hb
    rw [← Option.not_isSome_iff_eq_none] at hnone ⊢
    exact fun hsome => hnone (hresolved hkn hb hc hsome)
  constructor
  · intro k n c d hkn hc hd
    exact retains_of_reaches hnatives hkn hc hd
  · intro k n c d f x hkn hc hd hx
    exact hresolved hkn hc hd hx
  · intro n c d x hc hstep hfault
    cases step_raises hstep hfault with
    | values hcontrol hconcerns => cases hconcerns
    | undefined hlooks hnone => exact ⟨_, hlooks, hnever hc hnone⟩
    | @notHeld _ source exports names hbinds hx hexported hnone =>
      have hmissing : c.state.scopes.lookup? source x = none := by
        rw [Scopes.lookup?, chain_of_binds hc hbinds]
        simp [hnone]
      exact ⟨source, .imported hbinds hx, hnever hc hmissing⟩
  · intro n c d x hc hstep hfault
    cases step_raises hstep hfault with
    | values hcontrol hconcerns => cases hconcerns
    | @unassigned _ f cell hlooks hlookup hempty =>
      obtain ⟨g, -, hheld⟩ := List.exists_of_findSome?_eq_some hlookup
      have hlt : cell < c.state.scopes.cells.size := (sound_of_reaches hc).bounded g x cell hheld
      obtain ⟨k, hk, ⟨a, y, hlet⟩, hnone⟩ := exists_letAt_of_read?_eq_none hc hlt hempty
      obtain rfl : x = y := hlet.declaresAt.name_eq hk hc hheld
      exact ⟨f, cell, hlooks, hlookup, k, hk, ⟨a, hlet⟩, hnone⟩

theorem standard_keepsFields {native : Native} (h : Native.standard.find? x = some native) :
    native.KeepsFields := by
  have hmem := Table.mem_of_find?_ofList h
  simp only [List.mem_cons, Prod.mk.injEq, List.not_mem_nil, or_false] at hmem
  intro args host
  rcases hmem with ⟨-, rfl⟩ | ⟨-, rfl⟩ | ⟨-, rfl⟩ | ⟨-, rfl⟩
  · exact Heap.retains_refl _
  · exact Heap.retains_refl _
  · have hrun : Native.parseNum.run args host = parseNum (args.headD .null) host := rfl
    rw [hrun, parseNum]
    split <;> exact Heap.alloc_retains _ _
  · exact Heap.retains_refl _

def redeclared : Program where
  modules := [⟨"Main", [.declare "x", .assign "x" .null, .declare "x", .eval (.var "x")], []⟩]
  natives := Native.standard

theorem nothing_lost_redeclared :
    NothingLost redeclared ⟨.empty, ⟨"", [], fun _ => 0, 0⟩⟩ ∧
      (redeclared.run ⟨.empty, ⟨"", [], fun _ => 0, 0⟩⟩ 20).map Outcome.result =
        some (.error (.unassigned "x")) := by
  refine ⟨nothing_lost _ _ ?_, rfl⟩
  intro x native hx
  exact standard_keepsFields hx

end ModuleScript
