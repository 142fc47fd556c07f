import ModuleScript.Proofs.Sharing.Slots

/-!
What scopes and heaps retain. No operation takes a frame, a name or the content of a cell away
(`Retains`), and all but the declaration of a variable put something into the cells that they make
(`Supplies`). An object keeps its fields when others are set.
-/

namespace ModuleScript

namespace Scopes

section Retains

variable {α : Type} {s t u : Scopes α} {f : FrameId} {x : Name}

/--
Frames stay inside the same frames and keep their names, and cells are not emptied. A name may mean
another cell than before, and a cell may hold something else.
-/
structure Retains (s t : Scopes α) : Prop where
  frames : s.nextFrame ≤ t.nextFrame
  chain : ∀ f < s.nextFrame, t.chain f = s.chain f
  names : ∀ f x, (s.here? f x).isSome → (t.here? f x).isSome
  cells : ∀ cell, (s.read? cell).isSome → (t.read? cell).isSome

structure Supplies (s t : Scopes α) : Prop extends Retains s t where
  filled : ∀ cell < t.cells.size, (t.read? cell).isSome ∨ cell < s.cells.size

theorem retains_refl (s : Scopes α) : Retains s s where
  frames := Nat.le_refl _
  chain _ _ := rfl
  names _ _ := id
  cells _ := id

theorem Retains.trans (h : Retains s t) (h' : Retains t u) : Retains s u where
  frames := Nat.le_trans h.frames h'.frames
  chain f hf := (h'.chain f (Nat.lt_of_lt_of_le hf h.frames)).trans (h.chain f hf)
  names f x hx := h'.names f x (h.names f x hx)
  cells cell hcell := h'.cells cell (h.cells cell hcell)

theorem supplies_refl (s : Scopes α) : Supplies s s :=
  ⟨retains_refl s, fun _ hcell => .inr hcell⟩

theorem Supplies.trans (h : Supplies s t) (h' : Supplies t u) : Supplies s u := by
  refine ⟨h.toRetains.trans h'.toRetains, ?_⟩
  intro cell hcell
  rcases h'.filled cell hcell with hfilled | hold
  · exact .inl hfilled
  · exact (h.filled cell hold).imp (h'.cells cell) id

theorem Retains.isSome_lookup? (h : Retains s t) (hx : (s.lookup? f x).isSome) :
    (t.lookup? f x).isSome := by
  obtain ⟨cell, hcell⟩ := Option.isSome_iff_exists.mp hx
  obtain ⟨g, hg, hhere⟩ := List.exists_of_findSome?_eq_some hcell
  have hheld : (t.here? g x).isSome := h.names g x (hhere ▸ rfl)
  have hf : f < s.nextFrame ∨ g = f := by
    rcases Nat.lt_or_ge f s.nextFrame with hlt | hge
    · exact .inl hlt
    · rw [chain_of_le hge] at hg
      exact .inr (List.mem_singleton.mp hg)
  have hmem : g ∈ t.chain f := by
    rcases hf with hlt | rfl
    · rw [h.chain f hlt]
      exact hg
    · exact List.mem_cons_self
  rw [lookup?, List.findSome?_isSome_iff]
  exact ⟨g, hmem, hheld⟩

theorem lt_of_isSome_read? {cell : CellId} (h : (s.read? cell).isSome) : cell < s.cells.size := by
  rcases Nat.lt_or_ge cell s.cells.size with hlt | hge
  · exact hlt
  · have hnone : s.cells[cell]? = none := Array.getElem?_eq_none hge
    rw [read?, hnone] at h
    cases h

theorem bind_supplies (s : Scopes α) (f : FrameId) (x : Name) (c : CellId) :
    Supplies s (s.bind f x c) := by
  have hfills := bind_fills s f x c
  refine ⟨⟨Nat.le_of_eq hfills.frames.symm, fun g _ => hfills.chain g, ?_, fun _ => id⟩,
    fun _ hcell => .inr hcell⟩
  intro g y hy
  rcases Nat.lt_or_ge f s.nextFrame with hf | hf
  · rw [here?_bind hf]
    split
    · rfl
    · exact hy
  · rw [bind_of_le hf]
    exact hy

theorem bindNew_retains (s : Scopes α) (f : FrameId) (x : Name) (content : Option α) :
    Retains s (s.bindNew f x content) := by
  have hbound := bind_supplies s f x s.cells.size
  refine ⟨hbound.frames, hbound.chain, hbound.names, ?_⟩
  intro cell hcell
  rw [read?_bindNew (lt_of_isSome_read? hcell)]
  exact hcell

theorem define_supplies (s : Scopes α) (f : FrameId) (x : Name) (a : α) :
    Supplies s (s.define f x a) := by
  refine ⟨bindNew_retains s f x (some a), ?_⟩
  intro cell hcell
  have hsize : cell < s.cells.size + 1 := Nat.lt_of_lt_of_eq hcell (size_cells_bindNew s f x _)
  rcases Nat.lt_succ_iff_lt_or_eq.mp hsize with hold | rfl
  · exact .inr hold
  · have hread : (s.define f x a).read? s.cells.size =
        (s.cells.push (some a))[s.cells.size]?.join := rfl
    rw [hread, Array.getElem?_push_size]
    exact .inl rfl

theorem write_supplies (s : Scopes α) (c : CellId) (a : α) : Supplies s (s.write c a) := by
  have hsize : (s.write c a).cells.size = s.cells.size := Array.size_setIfInBounds
  refine ⟨⟨Nat.le_refl _, fun _ _ => rfl, fun _ _ => id, ?_⟩, ?_⟩
  · intro cell hcell
    by_cases hc : c < s.cells.size
    · rw [read?_write hc]
      split
      · rfl
      · exact hcell
    · rw [write_of_le (Nat.le_of_not_lt hc)]
      exact hcell
  · intro cell hcell
    exact .inr (Nat.lt_of_lt_of_eq hcell hsize)

theorem newFrame_supplies (s : Scopes α) (enclosing : List FrameId) :
    Supplies s (s.newFrame enclosing) := by
  refine ⟨⟨?_, ?_, ?_, fun _ => id⟩, fun _ hcell => .inr hcell⟩
  · rw [nextFrame_newFrame]
    exact Nat.le_succ _
  · intro f hf
    rw [chain_newFrame, if_neg (Nat.ne_of_lt hf)]
  · intro f x hx
    rw [here?_newFrame]
    exact hx

theorem defineAll_supplies (s : Scopes α) (f : FrameId) (bindings : List (Name × α)) :
    Supplies s (s.defineAll f bindings) := by
  induction bindings generalizing s with
  | nil => exact supplies_refl s
  | cons entry rest ih => exact (define_supplies s f entry.1 entry.2).trans (ih _)

theorem enter_supplies (s : Scopes α) (f : FrameId) (bindings : List (Name × α)) :
    Supplies s (s.enter f bindings) :=
  (newFrame_supplies s _).trans (defineAll_supplies _ _ bindings)

end Retains

theorem importNames_supplies (source : FrameId) (exports : List Name) (f : FrameId)
    (names : List Name) (s : Scopes Value) :
    Supplies s (importNames source exports f names s).2 := by
  induction names generalizing s with
  | nil => exact supplies_refl s
  | cons x rest ih =>
    rw [importNames]
    cases s.exported source exports x with
    | error e => exact supplies_refl s
    | ok c => exact (bind_supplies s f x c).trans (ih _)

theorem importNatives_supplies (natives : Table Native) (f : FrameId) (names : List Name)
    (s : Scopes Value) : Supplies s (importNatives natives f names s).2 := by
  induction names generalizing s with
  | nil => exact supplies_refl s
  | cons x rest ih =>
    rw [importNatives]
    cases natives.find? x with
    | none => exact supplies_refl s
    | some native => exact (define_supplies s f x (.native x)).trans (ih _)

end Scopes

namespace Heap

variable {h h' h'' : Heap}

/-- Every object stays, with every field that it has; a field may hold another value. -/
structure Retains (h h' : Heap) : Prop where
  objects : h.size ≤ h'.size
  fields : ∀ o x, x ∈ (h.fields o).names → x ∈ (h'.fields o).names

theorem retains_refl (h : Heap) : Retains h h :=
  ⟨Nat.le_refl _, fun _ _ => id⟩

theorem Retains.trans (hr : Retains h h') (hr' : Retains h' h'') : Retains h h'' :=
  ⟨Nat.le_trans hr.objects hr'.objects, fun o x hx => hr'.fields o x (hr.fields o x hx)⟩

theorem alloc_retains (h : Heap) (fields : Table Value) : Retains h (h.alloc fields) := by
  refine ⟨?_, ?_⟩
  · rw [size_alloc]
    exact Nat.le_succ _
  · intro o x hx
    rw [fields_alloc]
    split
    · -- the new object had no fields before
      rename_i ho
      have hnone : h.objects[o]? = none := Array.getElem?_eq_none (Nat.le_of_eq ho.symm)
      rw [Heap.fields, hnone] at hx
      cases hx
    · exact hx

theorem set_retains (h : Heap) (o : ObjectId) (x : Name) (v : Value) :
    Retains h (h.set o x v) := by
  refine ⟨Nat.le_of_eq (size_set h o x v).symm, ?_⟩
  intro o' y hy
  by_cases ho : o < h.size
  · rw [fields_set ho]
    split
    · rename_i hsame
      subst hsame
      rw [Table.names_insert]
      split
      · exact hy
      · exact List.mem_append_left [x] hy
    · exact hy
  · rw [set_of_le (Nat.le_of_not_lt ho)]
    exact hy

end Heap

end ModuleScript
