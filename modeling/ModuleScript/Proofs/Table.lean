import Mathlib.Data.List.Perm.Subperm
import ModuleScript.Table

/-!
Tables as sets of entries: a name is found exactly when it is listed, and with what it is listed.
-/

namespace ModuleScript

variable {α : Type} {x : Name} {a : α}

theorem findEntry_eq_none_iff {l : List (Name × α)} :
    findEntry x l = none ↔ x ∉ l.map Prod.fst := by
  induction l with
  | nil => simp [findEntry]
  | cons entry rest ih =>
    by_cases hx : entry.1 = x
    · simp [findEntry, hx]
    · have hx' : x ≠ entry.1 := Ne.symm hx
      simp [findEntry, hx, hx', ih]

theorem findEntry_eq_some_iff {l : List (Name × α)} (hl : (l.map Prod.fst).Nodup) :
    findEntry x l = some a ↔ (x, a) ∈ l := by
  induction l with
  | nil => simp [findEntry]
  | cons entry rest ih =>
    obtain ⟨y, b⟩ := entry
    obtain ⟨hy, hrest⟩ := List.nodup_cons.mp hl
    by_cases hx : y = x
    · subst hx
      have hne : (y, a) ∉ rest := fun h => hy (List.mem_map.mpr ⟨(y, a), h, rfl⟩)
      simp [findEntry, hne, eq_comm]
    · simp [findEntry, hx, Ne.symm hx, ih hrest]

namespace Table

variable {t u : Table α}

theorem find?_eq_some_iff : t.find? x = some a ↔ (x, a) ∈ t.entries :=
  findEntry_eq_some_iff t.nodup

theorem isSome_find?_iff : (t.find? x).isSome ↔ x ∈ t.names := by
  rw [Option.isSome_iff_ne_none]
  exact (not_congr findEntry_eq_none_iff).trans not_not

/-- Tables of one size share their names as soon as one has the names of the other. -/
theorem mem_names_iff_of_subset (hsize : t.size = u.size) (hsub : ∀ x ∈ t.names, x ∈ u.names) :
    x ∈ t.names ↔ x ∈ u.names := by
  have hlength : u.names.length ≤ t.names.length := by
    rw [names, names, List.length_map, List.length_map]
    exact Nat.le_of_eq hsize.symm
  have hperm := (List.subperm_of_subset t.nodup hsub).perm_of_length_le hlength
  exact hperm.mem_iff

theorem size_eq_of_mem_names_iff (h : ∀ x, x ∈ t.names ↔ x ∈ u.names) : t.size = u.size := by
  have hperm : t.names.Perm u.names := (List.perm_ext_iff_of_nodup t.nodup u.nodup).mpr h
  simpa [names, size] using hperm.length_eq

theorem find?_eq_of_perm (h : t.entries.Perm u.entries) (x : Name) : t.find? x = u.find? x := by
  apply Option.ext
  intro a
  rw [find?_eq_some_iff, find?_eq_some_iff]
  exact h.mem_iff

theorem exists_mem_of_foldl_insert (l : List (Name × α)) (t : Table α)
    (h : (l.foldl (fun t entry => t.insert entry.1 entry.2) t).find? x = some a) :
    (x, a) ∈ l ∨ t.find? x = some a := by
  induction l generalizing t with
  | nil => exact .inr h
  | cons entry rest ih =>
    rcases ih (t.insert entry.1 entry.2) h with hrest | hfirst
    · exact .inl (List.mem_cons_of_mem entry hrest)
    · rw [find?_insert] at hfirst
      split at hfirst
      · rename_i hx
        obtain rfl := Option.some.inj hfirst
        exact .inl (hx ▸ List.mem_cons_self)
      · exact .inr hfirst

theorem mem_of_find?_ofList {l : List (Name × α)} (h : (ofList l).find? x = some a) :
    (x, a) ∈ l := by
  rcases exists_mem_of_foldl_insert l ∅ h with hl | hempty
  · exact hl
  · cases hempty

end Table

end ModuleScript
