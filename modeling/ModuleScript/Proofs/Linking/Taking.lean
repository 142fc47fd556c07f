import ModuleScript.Machine.State
import ModuleScript.Proofs.Sharing.Slots

/-!
Which names an import takes, and what it binds. Names are taken in order up to the first that is
refused, and binding one of them has no influence on the others (`importNames_taken`), not even when
they are imported into the frame that offers them.
-/

namespace ModuleScript

/-- Names are taken up to the first that is refused. -/
inductive TakenInOrder (offered : Name → Prop) (refused : Name → Fault → Prop) :
    List Name → Option Fault → List Name → Prop
  | all {names : List Name} : (∀ y ∈ names, offered y) →
      TakenInOrder offered refused names none names
  | upTo {taken rest : List Name} {y : Name} {e : Fault} : (∀ z ∈ taken, offered z) →
      refused y e → TakenInOrder offered refused (taken ++ y :: rest) (some e) taken

namespace Scopes

def Offers (s : Scopes Value) (source : FrameId) (exports : List Name) (y : Name) : Prop :=
  y ∈ exports ∧ ∃ cell, s.here? source y = some cell ∧ (s.read? cell).isSome

inductive Refuses (s : Scopes Value) (source : FrameId) (exports : List Name) (y : Name) :
    Fault → Prop
  | notExported : y ∉ exports → Refuses s source exports y (.noSuchExport y)
  | notHeld : y ∈ exports → s.here? source y = none → Refuses s source exports y (.notInScope y)
  | unassigned {cell : CellId} : y ∈ exports → s.here? source y = some cell →
      s.read? cell = none → Refuses s source exports y (.unassigned y)

end Scopes

/--
In `t` the frame `f` holds new cells with the native functions, and `t` is otherwise as `s`.
-/
structure BindsNatives (f : FrameId) (taken : List Name) (s t : State) : Prop where
  rest : t = { s with scopes := t.scopes }
  fills : Scopes.Fills f taken s.scopes t.scopes
  contents : ∀ cell < s.scopes.cells.size, t.scopes.read? cell = s.scopes.read? cell
  held : ∀ y ∈ taken, ∃ cell, s.scopes.cells.size ≤ cell ∧ t.scopes.here? f y = some cell ∧
    t.scopes.read? cell = some (.native y)

/--
In `t` the frame `f` holds the cells that the frame `source` holds, and `t` is otherwise as `s`. The
two frames may be one.
-/
structure BindsCells (source f : FrameId) (taken : List Name) (s t : State) : Prop where
  rest : t = { s with scopes := t.scopes }
  fills : Scopes.Fills f taken s.scopes t.scopes
  contents : t.scopes.cells = s.scopes.cells
  held : ∀ y ∈ taken, ∃ cell, s.scopes.here? source y = some cell ∧
    t.scopes.here? source y = some cell ∧ t.scopes.here? f y = some cell

section Taken

variable {offered : Name → Prop} {refused : Name → Fault → Prop}
  {names rest taken taken' : List Name} {fault fault' : Option Fault} {x : Name} {e : Fault}

theorem TakenInOrder.cons (hx : offered x) (h : TakenInOrder offered refused rest fault taken) :
    TakenInOrder offered refused (x :: rest) fault (x :: taken) := by
  cases h with
  | all hall => exact .all (List.forall_mem_cons.mpr ⟨hx, hall⟩)
  | @upTo taken after y e hall hy =>
    have hlonger :
        TakenInOrder offered refused ((x :: taken) ++ y :: after) (some e) (x :: taken) :=
      .upTo (List.forall_mem_cons.mpr ⟨hx, hall⟩) hy
    exact hlonger

theorem takenInOrder_of_refused (hx : refused x e) (rest : List Name) :
    TakenInOrder offered refused (x :: rest) (some e) [] := by
  have h : TakenInOrder offered refused ([] ++ x :: rest) (some e) [] :=
    .upTo (List.forall_mem_nil _) hx
  exact h

theorem takenInOrder_nil_iff :
    TakenInOrder offered refused [] fault taken ↔ fault = none ∧ taken = [] := by
  constructor
  · intro h
    generalize hnames : [] = names at h
    cases h with
    | all =>
      subst hnames
      exact ⟨rfl, rfl⟩
    | upTo => simp at hnames
  · rintro ⟨rfl, rfl⟩
    exact .all (List.forall_mem_nil _)

theorem takenInOrder_cons_iff :
    TakenInOrder offered refused (x :: rest) fault taken ↔
      (offered x ∧ ∃ more, taken = x :: more ∧ TakenInOrder offered refused rest fault more) ∨
        ∃ e, refused x e ∧ fault = some e ∧ taken = [] := by
  constructor
  · intro h
    generalize hnames : x :: rest = names at h
    cases h with
    | all hall =>
      subst hnames
      obtain ⟨hx, hrest⟩ := List.forall_mem_cons.mp hall
      exact .inl ⟨hx, rest, rfl, .all hrest⟩
    | @upTo taken after y e hall hy =>
      cases taken with
      | nil =>
        cases hnames
        exact .inr ⟨e, hy, rfl, rfl⟩
      | cons z more =>
        cases hnames
        obtain ⟨hx, hmore⟩ := List.forall_mem_cons.mp hall
        exact .inl ⟨hx, more, rfl, .upTo hmore hy⟩
  · rintro (⟨hx, more, rfl, hrest⟩ | ⟨e, hx, rfl, rfl⟩)
    · exact hrest.cons hx
    · exact takenInOrder_of_refused hx rest

/-- It is plain what is taken if no name is offered and refused, nor refused for two reasons. -/
theorem TakenInOrder.unique (hoffered : ∀ {y e}, offered y → ¬refused y e)
    (hrefused : ∀ {y e e'}, refused y e → refused y e' → e = e')
    (h : TakenInOrder offered refused names fault taken)
    (h' : TakenInOrder offered refused names fault' taken') : fault = fault' ∧ taken = taken' := by
  induction names generalizing taken taken' with
  | nil =>
    obtain ⟨rfl, rfl⟩ := takenInOrder_nil_iff.mp h
    obtain ⟨rfl, rfl⟩ := takenInOrder_nil_iff.mp h'
    exact ⟨rfl, rfl⟩
  | cons x rest ih =>
    rcases takenInOrder_cons_iff.mp h with ⟨hx, more, rfl, hmore⟩ | ⟨e, hx, rfl, rfl⟩ <;>
      rcases takenInOrder_cons_iff.mp h' with ⟨hx', more', rfl, hmore'⟩ | ⟨e', hx', rfl, rfl⟩
    · obtain ⟨rfl, rfl⟩ := ih hmore hmore'
      exact ⟨rfl, rfl⟩
    · exact absurd hx' (hoffered hx)
    · exact absurd hx (hoffered hx')
    · exact ⟨congrArg some (hrefused hx hx'), rfl⟩

end Taken

namespace Scopes

variable {s : Scopes Value} {source f : FrameId} {exports names : List Name} {x y : Name}
  {cell : CellId} {e : Fault}

theorem offers_iff :
    s.Offers source exports y ↔ ∃ cell, s.exported source exports y = .ok cell := by
  rw [Offers, exported]
  by_cases hy : y ∈ exports
  · rw [if_pos hy]
    cases hcell : s.here? source y with
    | none => simp
    | some cell => by_cases hread : (s.read? cell).isSome = true <;> simp [hy, hread]
  · simp [hy]

theorem refuses_iff : s.Refuses source exports y e ↔ s.exported source exports y = .error e := by
  constructor
  · intro h
    cases h with
    | notExported hy => rw [exported, if_neg hy]
    | notHeld hy hnone => rw [exported, if_pos hy, hnone]
    | unassigned hy hcell hread =>
      simp only [exported, if_pos hy, hcell, hread, Option.isSome_none, Bool.false_eq_true,
        if_false]
  · intro h
    rw [exported] at h
    split at h
    · rename_i hy
      split at h
      · rename_i hnone
        exact Except.error.inj h ▸ .notHeld hy hnone
      · rename_i cell hcell
        split at h
        · cases h
        · rename_i hread
          exact Except.error.inj h ▸ .unassigned hy hcell (Option.not_isSome_iff_eq_none.mp hread)
    · rename_i hy
      exact Except.error.inj h ▸ .notExported hy

/-- Binding names on the way has no influence on those that follow. -/
theorem importNames_taken (hf : f < s.nextFrame) (source : FrameId) (exports names : List Name) :
    TakenInOrder (s.Offers source exports) (s.Refuses source exports) names
      (importNames source exports f names s).1 (s.importable source exports names) := by
  have hoffers :
      s.Offers source exports = fun y => ∃ cell, s.exported source exports y = .ok cell :=
    funext fun _ => propext offers_iff
  have hrefuses : s.Refuses source exports = fun y e => s.exported source exports y = .error e :=
    funext fun _ => funext fun _ => propext refuses_iff
  rw [hoffers, hrefuses]
  clear hoffers hrefuses
  induction names generalizing s with
  | nil => exact .all (List.forall_mem_nil _)
  | cons x rest ih =>
    rw [importNames, importable, List.takeWhile_cons]
    cases hx : s.exported source exports x with
    | error e => exact takenInOrder_of_refused hx rest
    | ok cell =>
      have hsource := here?_of_exported hx
      have hrest := ih (s := s.bind f x cell) (nextFrame_bind s f x cell ▸ hf)
      simp only [exported_bind hf hsource, importable_bind hf hsource] at hrest
      exact hrest.cons ⟨cell, hx⟩

theorem importNatives_taken (natives : Table Native) (f : FrameId) (names : List Name)
    (s : Scopes Value) :
    TakenInOrder (fun y => ∃ native, natives.find? y = some native)
      (fun y e => natives.find? y = none ∧ e = .noSuchExport y) names
      (importNatives natives f names s).1
      (names.takeWhile fun y => (natives.find? y).isSome) := by
  induction names generalizing s with
  | nil => exact .all (List.forall_mem_nil _)
  | cons x rest ih =>
    rw [importNatives, List.takeWhile_cons]
    cases hx : natives.find? x with
    | none => exact takenInOrder_of_refused ⟨hx, rfl⟩ rest
    | some native => exact (ih _).cons ⟨native, hx⟩

theorem exists_here?_importNatives (hf : f < s.nextFrame) (natives : Table Native)
    (hy : y ∈ names.takeWhile fun y => (natives.find? y).isSome) :
    ∃ cell, s.cells.size ≤ cell ∧ (importNatives natives f names s).2.here? f y = some cell ∧
      (importNatives natives f names s).2.read? cell = some (.native y) := by
  induction names generalizing s with
  | nil => cases hy
  | cons x rest ih =>
    rw [List.takeWhile_cons] at hy
    rw [importNatives]
    cases hx : natives.find? x with
    | none => simp [hx] at hy
    | some native =>
      have hfirst := bindNew_fills s f x (some (.native x))
      have hlater : f < (s.define f x (.native x)).nextFrame := hfirst.frames ▸ hf
      have hsize : (s.define f x (.native x)).cells.size = s.cells.size + 1 :=
        size_cells_bindNew s f x _
      by_cases hmem : y ∈ rest.takeWhile fun y => (natives.find? y).isSome
      · obtain ⟨cell, hcell, hheld⟩ := ih hlater hmem
        rw [hsize] at hcell
        exact ⟨cell, Nat.le_of_succ_le hcell, hheld⟩
      · obtain rfl : y = x := by simpa [hx, hmem] using hy
        have hlt : s.cells.size < (s.define f y (.native y)).cells.size := by
          rw [hsize]
          exact Nat.lt_succ_self _
        refine ⟨s.cells.size, Nat.le_refl _, ?_, ?_⟩
        · rw [(importNatives_adds hlater natives rest).kept f y fun h => hmem h.2]
          exact (here?_bindNew hf y _ f y).trans (if_pos ⟨rfl, rfl⟩)
        · exact (read?_importNatives hlt natives rest).trans (read?_bindNew_new s f y _)

/-- The frame that offers names keeps what it holds, also when they are imported into it. -/
theorem here?_source_importNames (hf : f < s.nextFrame) (names : List Name) (y : Name) :
    (importNames source exports f names s).2.here? source y = s.here? source y := by
  have hshares := importNames_shares hf source exports names
  by_cases hslot : source = f ∧ y ∈ s.importable source exports names
  · obtain ⟨cell, hsource, hheld⟩ := hshares.shared y hslot.2
    rw [hsource, ← hheld, hslot.1]
  · exact hshares.kept source y hslot

theorem Offers.not_refuses (h : s.Offers source exports y) : ¬s.Refuses source exports y e := by
  obtain ⟨cell, hcell⟩ := offers_iff.mp h
  intro hrefuses
  cases hcell.symm.trans (refuses_iff.mp hrefuses)

theorem Refuses.unique {e' : Fault} (h : s.Refuses source exports y e)
    (h' : s.Refuses source exports y e') : e = e' :=
  Except.error.inj ((refuses_iff.mp h).symm.trans (refuses_iff.mp h'))

end Scopes

section Binding

variable {f source : FrameId} {exports names : List Name} {s : State}

theorem importNatives_binds (hf : f < s.nextFrame) (natives : Table Native) (names : List Name) :
    BindsNatives f (names.takeWhile fun y => (natives.find? y).isSome) s
      { s with scopes := (s.scopes.importNatives natives f names).2 } where
  rest := rfl
  fills := by
    have hfills := Scopes.importNatives_fills natives f names s.scopes
    exact ⟨hfills.frames, hfills.chain, (Scopes.importNatives_adds hf natives names).kept⟩
  contents cell hcell := Scopes.read?_importNatives hcell natives names
  held y hy := Scopes.exists_here?_importNatives hf natives hy

theorem importNames_binds (hf : f < s.nextFrame) (source : FrameId) (exports names : List Name) :
    BindsCells source f (s.scopes.importable source exports names) s
      { s with scopes := (s.scopes.importNames source exports f names).2 } where
  rest := rfl
  fills := by
    have hfills := Scopes.importNames_fills source exports f names s.scopes
    exact ⟨hfills.frames, hfills.chain, (Scopes.importNames_shares hf source exports names).kept⟩
  contents := Scopes.cells_importNames source exports f names s.scopes
  held y hy := by
    obtain ⟨cell, hsource, hheld⟩ :=
      (Scopes.importNames_shares hf source exports names).shared y hy
    exact ⟨cell, hsource, (Scopes.here?_source_importNames hf names y).trans hsource, hheld⟩

end Binding

end ModuleScript
