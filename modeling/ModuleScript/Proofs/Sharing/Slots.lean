import ModuleScript.Proofs.Scopes

/-!
Slots: a slot is a name in a frame, and it holds a cell. Declaring names gives each of them a new
cell (`Adds`), and importing names from a module lets their slots hold the cells that the top frame
of the module holds under these names (`Shares`).
-/

namespace ModuleScript

namespace Scopes

section Adds

variable {α : Type} {s t u : Scopes α} {f g : FrameId} {x y : Name} {names : List Name}
  {cell : CellId}

def Bounded (s : Scopes α) : Prop := ∀ f x cell, s.here? f x = some cell → cell < s.cells.size

def NamedOnce (s : Scopes α) : Prop :=
  ∀ f g x y cell, s.here? f x = some cell → s.here? g y = some cell → x = y

/-- The scopes `t` are `s` with `names` put into the frame `f`, each with a new cell of its own. -/
structure Adds (f : FrameId) (names : List Name) (s t : Scopes α) : Prop where
  cells : s.cells.size ≤ t.cells.size
  fresh : ∀ x ∈ names, ∃ cell, t.here? f x = some cell ∧ s.cells.size ≤ cell ∧
    cell < t.cells.size
  apart : ∀ x ∈ names, ∀ y ∈ names, t.here? f x = t.here? f y → x = y
  kept : ∀ g y, ¬(g = f ∧ y ∈ names) → t.here? g y = s.here? g y

theorem adds_nil (f : FrameId) (hcells : s.cells.size ≤ t.cells.size)
    (hkept : ∀ g y, t.here? g y = s.here? g y) : Adds f [] s t :=
  ⟨hcells, List.forall_mem_nil _, List.forall_mem_nil _, fun g y _ => hkept g y⟩

theorem Adds.of_here?_eq {r : Scopes α} (h : Adds f names s t) (hcells : r.cells = s.cells)
    (hhere : ∀ g y, s.here? g y = r.here? g y) : Adds f names r t where
  cells := hcells ▸ h.cells
  fresh := hcells ▸ h.fresh
  apart := h.apart
  kept g y hy := (h.kept g y hy).trans (hhere g y)

theorem here?_bindNew (hf : f < s.nextFrame) (x : Name) (content : Option α) (g : FrameId)
    (y : Name) :
    (s.bindNew f x content).here? g y = if g = f ∧ y = x then some s.cells.size else s.here? g y :=
  here?_bind (s := ⟨s.frames, s.cells.push content⟩) hf x s.cells.size g y

theorem size_cells_bindNew (s : Scopes α) (f : FrameId) (x : Name) (content : Option α) :
    (s.bindNew f x content).cells.size = s.cells.size + 1 := Array.size_push ..

theorem bindNew_adds (hf : f < s.nextFrame) (x : Name) (content : Option α) :
    Adds f [x] s (s.bindNew f x content) := by
  have hx : (s.bindNew f x content).here? f x = some s.cells.size := by
    rw [here?_bindNew hf, if_pos ⟨rfl, rfl⟩]
  have hlt : s.cells.size < (s.bindNew f x content).cells.size :=
    Nat.lt_of_lt_of_eq (Nat.lt_succ_self _) (size_cells_bindNew s f x content).symm
  refine ⟨Nat.le_of_lt hlt, ?_, ?_, ?_⟩
  · exact List.forall_mem_singleton.mpr ⟨s.cells.size, hx, Nat.le_refl _, hlt⟩
  · intro y hy z hz _
    rw [List.mem_singleton.mp hy, List.mem_singleton.mp hz]
  · intro g y hy
    have hother : ¬(g = f ∧ y = x) := fun h => hy ⟨h.1, List.mem_singleton.mpr h.2⟩
    rw [here?_bindNew hf, if_neg hother]

/-- One name more, before the others. A name that comes twice has its last cell. -/
theorem Adds.cons (h : Adds f [x] s t) (h' : Adds f names t u) : Adds f (x :: names) s u := by
  obtain ⟨first, hfirst, hlow, hhigh⟩ := h.fresh x (List.mem_singleton_self x)
  have hold : x ∉ names → u.here? f x = some first := by
    intro hx
    rw [h'.kept f x fun hmem => hx hmem.2, hfirst]
  have hnew : ∀ y ∈ names, x ∉ names → u.here? f x ≠ u.here? f y := by
    intro y hy hx heq
    obtain ⟨cell, hcell, hge, -⟩ := h'.fresh y hy
    rw [hold hx, hcell] at heq
    obtain rfl : first = cell := Option.some.inj heq
    exact Nat.not_le_of_lt hhigh hge
  refine ⟨Nat.le_trans h.cells h'.cells, ?_, ?_, ?_⟩
  · intro y hy
    by_cases hmem : y ∈ names
    · obtain ⟨cell, hcell, hge, hlt⟩ := h'.fresh y hmem
      exact ⟨cell, hcell, Nat.le_trans h.cells hge, hlt⟩
    · obtain rfl : y = x := (List.mem_cons.mp hy).resolve_right hmem
      exact ⟨first, hold hmem, hlow, Nat.lt_of_lt_of_le hhigh h'.cells⟩
  · intro y hy z hz heq
    rcases List.mem_cons.mp hy with rfl | hy' <;> rcases List.mem_cons.mp hz with rfl | hz'
    · rfl
    · by_cases hmem : y ∈ names
      · exact h'.apart y hmem z hz' heq
      · exact absurd heq (hnew z hz' hmem)
    · by_cases hmem : z ∈ names
      · exact h'.apart y hy' z hmem heq
      · exact absurd heq.symm (hnew y hy' hmem)
    · exact h'.apart y hy' z hz' heq
  · intro g y hy
    have hrest : ¬(g = f ∧ y ∈ names) := fun hmem => hy ⟨hmem.1, List.mem_cons_of_mem x hmem.2⟩
    have hhead : ¬(g = f ∧ y ∈ [x]) := by
      rintro ⟨hg, hmem⟩
      exact hy ⟨hg, List.mem_cons.mpr (.inl (List.mem_singleton.mp hmem))⟩
    rw [h'.kept g y hrest, h.kept g y hhead]

theorem defineAll_adds (hf : f < s.nextFrame) (bindings : List (Name × α)) :
    Adds f (bindings.map Prod.fst) s (s.defineAll f bindings) := by
  induction bindings generalizing s with
  | nil => exact adds_nil f (Nat.le_refl _) fun _ _ => rfl
  | cons entry rest ih =>
    have hfills := bindNew_fills s f entry.1 (some entry.2)
    exact (bindNew_adds hf entry.1 (some entry.2)).cons (ih (hfills.frames ▸ hf))

theorem enter_adds (s : Scopes α) (f : FrameId) (bindings : List (Name × α)) :
    Adds s.nextFrame (bindings.map Prod.fst) s (s.enter f bindings) := by
  have hlt : s.nextFrame < (s.newChild f).nextFrame := by
    rw [newChild, nextFrame_newFrame]
    exact Nat.lt_succ_self _
  exact (defineAll_adds hlt bindings).of_here?_eq rfl fun g y => here?_newFrame ..

theorem importNatives_adds {s : Scopes Value} (hf : f < s.nextFrame) (natives : Table Native)
    (names : List Name) :
    Adds f (names.takeWhile fun y => (natives.find? y).isSome) s
      (importNatives natives f names s).2 := by
  induction names generalizing s with
  | nil => exact adds_nil f (Nat.le_refl _) fun _ _ => rfl
  | cons x rest ih =>
    rw [importNatives, List.takeWhile_cons]
    cases natives.find? x with
    | none => exact adds_nil f (Nat.le_refl _) fun _ _ => rfl
    | some native =>
      have hfills := bindNew_fills s f x (some (.native x))
      exact (bindNew_adds hf x (some (.native x))).cons (ih (hfills.frames ▸ hf))

theorem Adds.unique (h : Adds f names s t) (hs : s.Bounded) (hx : x ∈ names)
    (hcell : t.here? f x = some cell) (hy : t.here? g y = some cell) : g = f ∧ y = x := by
  obtain ⟨cell', hcell', hge, -⟩ := h.fresh x hx
  obtain rfl : cell = cell' := Option.some.inj (hcell.symm.trans hcell')
  by_cases hslot : g = f ∧ y ∈ names
  · obtain ⟨rfl, hmem⟩ := hslot
    exact ⟨rfl, h.apart y hmem x hx (hy.trans hcell.symm)⟩
  · rw [h.kept g y hslot] at hy
    exact absurd hge (Nat.not_le_of_lt (hs g y cell hy))

theorem Adds.bounded (h : Adds f names s t) (hs : s.Bounded) : t.Bounded := by
  intro g y cell hy
  by_cases hslot : g = f ∧ y ∈ names
  · obtain ⟨rfl, hmem⟩ := hslot
    obtain ⟨cell', hcell', -, hlt⟩ := h.fresh y hmem
    exact Option.some.inj (hy.symm.trans hcell') ▸ hlt
  · rw [h.kept g y hslot] at hy
    exact Nat.lt_of_lt_of_le (hs g y cell hy) h.cells

theorem Adds.namedOnce (h : Adds f names s t) (hs : s.Bounded) (hnamed : s.NamedOnce) :
    t.NamedOnce := by
  intro g k y z cell hy hz
  by_cases hfirst : g = f ∧ y ∈ names
  · obtain ⟨rfl, hmem⟩ := hfirst
    exact (h.unique hs hmem hy hz).2.symm
  by_cases hsecond : k = f ∧ z ∈ names
  · obtain ⟨rfl, hmem⟩ := hsecond
    exact (h.unique hs hmem hz hy).2
  rw [h.kept g y hfirst] at hy
  rw [h.kept k z hsecond] at hz
  exact hnamed g k y z cell hy hz

end Adds

section Contents

variable {α : Type} {f : FrameId} {cell : CellId}

theorem read?_bindNew {s : Scopes α} (hcell : cell < s.cells.size) (f : FrameId) (x : Name)
    (content : Option α) : (s.bindNew f x content).read? cell = s.read? cell := by
  have hread : (s.bindNew f x content).read? cell = (s.cells.push content)[cell]?.join := rfl
  rw [hread, Array.getElem?_push, if_neg (Nat.ne_of_lt hcell), read?]

theorem read?_bindNew_new (s : Scopes α) (f : FrameId) (x : Name) (content : Option α) :
    (s.bindNew f x content).read? s.cells.size = content := by
  have hread : (s.bindNew f x content).read? s.cells.size =
      (s.cells.push content)[s.cells.size]?.join := rfl
  rw [hread, Array.getElem?_push_size, Option.join_some]

theorem lt_size_cells_bindNew {s : Scopes α} (hcell : cell < s.cells.size) (f : FrameId) (x : Name)
    (content : Option α) : cell < (s.bindNew f x content).cells.size := by
  rw [size_cells_bindNew]
  exact Nat.lt_succ_of_lt hcell

theorem read?_defineAll {s : Scopes α} (hcell : cell < s.cells.size)
    (bindings : List (Name × α)) : (s.defineAll f bindings).read? cell = s.read? cell := by
  induction bindings generalizing s with
  | nil => rfl
  | cons entry rest ih =>
    have hrest := ih (lt_size_cells_bindNew hcell f entry.1 (some entry.2))
    exact hrest.trans (read?_bindNew hcell f entry.1 (some entry.2))

theorem read?_importNatives {s : Scopes Value} (hcell : cell < s.cells.size)
    (natives : Table Native) (names : List Name) :
    (importNatives natives f names s).2.read? cell = s.read? cell := by
  induction names generalizing s with
  | nil => rfl
  | cons x rest ih =>
    rw [importNatives]
    cases natives.find? x with
    | none => rfl
    | some native =>
      have hrest := ih (lt_size_cells_bindNew hcell f x (some (.native x)))
      exact hrest.trans (read?_bindNew hcell f x (some (.native x)))

theorem cells_importNames (source : FrameId) (exports : List Name) (f : FrameId)
    (names : List Name) (s : Scopes Value) :
    (importNames source exports f names s).2.cells = s.cells := by
  induction names generalizing s with
  | nil => rfl
  | cons x rest ih =>
    rw [importNames]
    cases s.exported source exports x with
    | error e => rfl
    | ok c => exact ih (s.bind f x c)

end Contents

section Shares

variable {s t : Scopes Value} {f source : FrameId} {x : Name} {exports names : List Name}
  {cell : CellId}

/-- The names that an import binds: those before the first that cannot be imported. -/
def importable (s : Scopes Value) (source : FrameId) (exports names : List Name) : List Name :=
  names.takeWhile fun y => (s.exported source exports y).isOk

/-- In `t` the slots of `names` in `f` hold the cells that those in `source` hold in `s`. -/
structure Shares (source f : FrameId) (names : List Name) (s t : Scopes Value) : Prop where
  cells : t.cells = s.cells
  shared : ∀ x ∈ names, ∃ cell, s.here? source x = some cell ∧ t.here? f x = some cell
  kept : ∀ g y, ¬(g = f ∧ y ∈ names) → t.here? g y = s.here? g y

theorem here?_of_exported (h : s.exported source exports x = .ok cell) :
    s.here? source x = some cell := by
  rw [exported] at h
  split at h
  · split at h
    · cases h
    · rename_i c hc
      split at h
      · exact Except.ok.inj h ▸ hc
      · cases h
  · cases h

theorem here?_source_bind (hf : f < s.nextFrame) (hx : s.here? source x = some cell) (y : Name) :
    (s.bind f x cell).here? source y = s.here? source y := by
  rw [here?_bind hf]
  split
  · rename_i h
    rw [h.2, hx]
  · rfl

theorem exported_bind (hf : f < s.nextFrame) (hx : s.here? source x = some cell)
    (exports : List Name) (y : Name) :
    (s.bind f x cell).exported source exports y = s.exported source exports y := by
  have hread (c : CellId) : (s.bind f x cell).read? c = s.read? c := rfl
  simp only [exported, here?_source_bind hf hx, hread]

theorem importable_bind (hf : f < s.nextFrame) (hx : s.here? source x = some cell)
    (exports names : List Name) :
    (s.bind f x cell).importable source exports names = s.importable source exports names := by
  simp only [importable, exported_bind hf hx]

theorem importNames_shares (hf : f < s.nextFrame) (source : FrameId) (exports names : List Name) :
    Shares source f (s.importable source exports names) s
      (importNames source exports f names s).2 := by
  induction names generalizing s with
  | nil => exact ⟨rfl, List.forall_mem_nil _, fun _ _ _ => rfl⟩
  | cons x rest ih =>
    rw [importNames, importable, List.takeWhile_cons]
    cases hx : s.exported source exports x with
    | error e => exact ⟨rfl, List.forall_mem_nil _, fun _ _ _ => rfl⟩
    | ok cell =>
      have hsource := here?_of_exported hx
      have hrest := ih (s := s.bind f x cell) (nextFrame_bind s f x cell ▸ hf)
      rw [importable_bind hf hsource] at hrest
      refine ⟨cells_importNames .., ?_, ?_⟩
      · intro y hy
        by_cases hmem : y ∈ s.importable source exports rest
        · obtain ⟨c, hc, hbound⟩ := hrest.shared y hmem
          rw [here?_source_bind hf hsource] at hc
          exact ⟨c, hc, hbound⟩
        · obtain rfl : y = x := (List.mem_cons.mp hy).resolve_right hmem
          refine ⟨cell, hsource, ?_⟩
          rw [hrest.kept f y fun h => hmem h.2, here?_bind hf, if_pos ⟨rfl, rfl⟩]
      · intro g y hy
        have htail : ¬(g = f ∧ y ∈ s.importable source exports rest) :=
          fun h => hy ⟨h.1, List.mem_cons_of_mem x h.2⟩
        have hhead : ¬(g = f ∧ y = x) := fun h => hy ⟨h.1, List.mem_cons.mpr (.inl h.2)⟩
        rw [hrest.kept g y htail, here?_bind hf, if_neg hhead]

theorem Shares.exists_here? (h : Shares source f names s t) {g : FrameId} {y : Name}
    (hy : t.here? g y = some cell) :
    s.here? g y = some cell ∨ g = f ∧ y ∈ names ∧ s.here? source y = some cell := by
  by_cases hslot : g = f ∧ y ∈ names
  · obtain ⟨rfl, hmem⟩ := hslot
    obtain ⟨cell', hsource, hbound⟩ := h.shared y hmem
    exact .inr ⟨rfl, hmem, hsource.trans (hbound.symm.trans hy)⟩
  · exact .inl (h.kept g y hslot ▸ hy)

theorem Shares.bounded (h : Shares source f names s t) (hs : s.Bounded) : t.Bounded := by
  intro g y cell hy
  rw [h.cells]
  rcases h.exists_here? hy with hold | ⟨-, -, hsource⟩
  · exact hs g y cell hold
  · exact hs source y cell hsource

theorem Shares.namedOnce (h : Shares source f names s t) (hs : s.NamedOnce) : t.NamedOnce := by
  have hbefore {g : FrameId} {y : Name} {cell : CellId} (hy : t.here? g y = some cell) :
      ∃ k, s.here? k y = some cell := by
    rcases h.exists_here? hy with hold | ⟨-, -, hsource⟩
    · exact ⟨g, hold⟩
    · exact ⟨source, hsource⟩
  intro g k y z cell hy hz
  obtain ⟨g', hy'⟩ := hbefore hy
  obtain ⟨k', hz'⟩ := hbefore hz
  exact hs g' k' y z cell hy' hz'

end Shares

end Scopes

end ModuleScript
