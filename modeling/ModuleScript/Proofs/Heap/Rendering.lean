import Mathlib.Data.List.Perm.Subperm
import ModuleScript.Heap.Display
import ModuleScript.Proofs.Heap.Bisimulation
import ModuleScript.Proofs.Table

/-!
The text of a value is the rendering of the tree that one gets by following fields, without those of
objects on their own path. Main statement: `display_eq_iff_renders`, writing always ends, with the
rendering, in whatever order the fields are listed.
-/

namespace ModuleScript

namespace Table

variable {α : Type} {t : Table α}

theorem mem_sorted_iff {x : Name} {a : α} : (x, a) ∈ t.sorted ↔ t.find? x = some a := by
  rw [find?_eq_some_iff]
  exact (List.mergeSort_perm t.entries _).mem_iff

theorem mem_map_fst_sorted_iff {x : Name} : x ∈ t.sorted.map Prod.fst ↔ x ∈ t.names :=
  ((List.mergeSort_perm t.entries _).map Prod.fst).mem_iff

theorem pairwise_sorted (t : Table α) : (t.sorted.map Prod.fst).Pairwise (· < ·) := by
  have hle : t.sorted.Pairwise fun p q => decide (p.1 ≤ q.1) = true := by
    apply List.pairwise_mergeSort
    · intro p q r hpq hqr
      simp only [decide_eq_true_eq] at hpq hqr ⊢
      exact String.le_trans hpq hqr
    · intro p q
      simpa using String.le_total p.1 q.1
  have hne : t.sorted.Pairwise fun p q => p.1 ≠ q.1 := by
    have hnodup : (t.sorted.map Prod.fst).Nodup :=
      ((List.mergeSort_perm t.entries _).map Prod.fst).nodup_iff.mpr t.nodup
    exact List.pairwise_map.mp hnodup
  apply List.pairwise_map.mpr
  refine (hle.and hne).imp ?_
  rintro p q ⟨hpq, hdiffer⟩
  have hpq' : p.1 ≤ q.1 := of_decide_eq_true hpq
  exact String.not_le.mp fun hqp => hdiffer (String.le_antisymm hpq' hqp)

theorem isEmpty_iff : t.isEmpty = true ↔ t.names = [] := by
  rw [isEmpty, names, List.isEmpty_iff, List.map_eq_nil_iff]

end Table

theorem nodup_of_pairwise_lt {names : List Name} (h : names.Pairwise (· < ·)) : names.Nodup := by
  refine h.imp ?_
  intro x y hlt heq
  exact String.lt_irrefl y (heq ▸ hlt)

theorem eq_of_pairwise_lt {names names' : List Name} (h : names.Pairwise (· < ·))
    (h' : names'.Pairwise (· < ·)) (hmem : ∀ x, x ∈ names ↔ x ∈ names') : names = names' := by
  have hperm : names.Perm names' :=
    (List.perm_ext_iff_of_nodup (nodup_of_pairwise_lt h) (nodup_of_pairwise_lt h')).mpr hmem
  refine hperm.eq_of_pairwise ?_ h h'
  intro x y _ _ hxy hyx
  exact absurd (String.lt_trans hxy hyx) (String.lt_irrefl x)

theorem writeFields_eq {write : List ObjectId → Value → String × List ObjectId}
    {printing : List ObjectId} (hwrite : ∀ v, (write printing v).2 = printing)
    (fields : List (Name × Value)) :
    writeFields write printing fields =
      (fields.map fun field => (field.1, (write printing field.2).1), printing) := by
  induction fields with
  | nil => rfl
  | cons field rest ih =>
    obtain ⟨x, v⟩ := field
    simp only [writeFields, hwrite, ih, List.map_cons]

namespace Heap

/--
The text of an occurrence of a value, `path` being the objects above it. An object on the path is
written as dots. Any other object is written with each of its fields once, in ascending order of
their names, and the values of the fields occur below it.
-/
inductive Renders (h : Heap) : List ObjectId → Value → String → Prop
  | number (path : List ObjectId) (x : Float) : Renders h path (.number x) (numberText x)
  | boolean (path : List ObjectId) (b : Bool) :
      Renders h path (.boolean b) (if b then "true" else "false")
  | string (path : List ObjectId) (s : String) : Renders h path (.string s) s
  | null (path : List ObjectId) : Renders h path .null "null"
  | closure (path : List ObjectId) (k : ClosureId) : Renders h path (.closure k) "<closure>"
  | native (path : List ObjectId) (x : Name) :
      Renders h path (.native x) ("<native function " ++ x ++ ">")
  | nested {path : List ObjectId} {o : ObjectId} :
      o ∈ path → Renders h path (.object o) "\x7b...\x7d"
  | empty {path : List ObjectId} {o : ObjectId} :
      o ∉ path → (h.fields o).names = [] → Renders h path (.object o) "\x7b\x7d"
  | object {path : List ObjectId} {o : ObjectId} {names : List Name} {text : Name → String} :
      o ∉ path → names ≠ [] → names.Pairwise (· < ·) →
      (∀ x, x ∈ names ↔ x ∈ (h.fields o).names) →
      (∀ x v, (h.fields o).find? x = some v → Renders h (o :: path) v (text x)) →
      Renders h path (.object o)
        ("\x7b " ++ ", ".intercalate (names.map fun x => x ++ ": " ++ text x) ++ " \x7d")

variable {h : Heap} {path : List ObjectId} {v : Value} {o : ObjectId}

/-- Every exit leaves the objects that are being written as it found them. -/
theorem writeUnder_restores (h : Heap) (n : Nat) (printing : List ObjectId) (v : Value) :
    (h.writeUnder n printing v).2 = printing := by
  induction n generalizing printing v with
  | zero => cases v <;> rfl
  | succ n ih =>
    cases v with
    | object o =>
      unfold writeUnder
      split
      · rfl
      · split
        · exact List.erase_cons_head ..
        · simp only [writeFields_eq (ih (o :: printing)), List.erase_cons_head]
    | _ => rfl

theorem writeUnder_object {n : Nat} (ho : o ∉ path) (hfields : (h.fields o).names ≠ []) :
    (h.writeUnder (n + 1) path (.object o)).1 = objectText ((h.fields o).sorted.map fun field =>
      (field.1, (h.writeUnder n (o :: path) field.2).1)) := by
  have hempty : ¬(h.fields o).isEmpty = true := fun hempty => hfields (Table.isEmpty_iff.mp hempty)
  rw [writeUnder, if_neg ho, if_neg hempty, writeFields_eq (writeUnder_restores h n (o :: path))]

theorem objectText_sorted {t : Table Value} {text : Name → String} {write : Value → String}
    (ht : t.names ≠ []) (htext : ∀ x v, t.find? x = some v → write v = text x) :
    objectText (t.sorted.map fun field => (field.1, write field.2)) =
      "\x7b " ++ ", ".intercalate ((t.sorted.map Prod.fst).map fun x => x ++ ": " ++ text x) ++
        " \x7d" := by
  have hfields : (t.sorted.map fun field => (field.1, write field.2)) =
      (t.sorted.map Prod.fst).map fun x => (x, text x) := by
    rw [List.map_map]
    apply List.map_congr_left
    intro field hfield
    exact congrArg (Prod.mk field.1) (htext _ _ (Table.mem_sorted_iff.mp hfield))
  have hnonempty : t.sorted.map Prod.fst ≠ [] := by
    obtain ⟨x, hx⟩ := List.exists_mem_of_ne_nil _ ht
    exact List.ne_nil_of_mem (Table.mem_map_fst_sorted_iff.mpr hx)
  rw [hfields]
  cases hnames : t.sorted.map Prod.fst with
  | nil => exact absurd hnames hnonempty
  | cons x rest =>
    simp only [objectText, List.map_cons, List.map_map]
    rfl

theorem length_path_le (hnodup : path.Nodup) (hrange : ∀ o ∈ path, o < h.size) :
    path.length ≤ h.size := by
  have hsub : path ⊆ List.range h.size := fun o ho => List.mem_range.mpr (hrange o ho)
  simpa using (List.subperm_of_subset hnodup hsub).length_le

/-- Room for as many objects as are not being written yet is room enough. -/
theorem writeUnder_renders (n : Nat) (hnodup : path.Nodup) (hrange : ∀ o ∈ path, o < h.size)
    (hn : h.size < n + path.length) (v : Value) :
    h.Renders path v (h.writeUnder n path v).1 := by
  induction n generalizing path v with
  | zero =>
    have hle := length_path_le hnodup hrange
    omega
  | succ n ih =>
    cases v with
    | number x => exact .number path x
    | boolean b => exact .boolean path b
    | string s => exact .string path s
    | null => exact .null path
    | closure k => exact .closure path k
    | native x => exact .native path x
    | object o =>
      by_cases ho : o ∈ path
      · have htext : (h.writeUnder (n + 1) path (.object o)).1 = nestedText := by
          simp only [writeUnder, if_pos ho]
        rw [htext]
        exact .nested ho
      by_cases hfields : (h.fields o).names = []
      · have htext : (h.writeUnder (n + 1) path (.object o)).1 = objectText [] := by
          simp only [writeUnder, if_neg ho, if_pos (Table.isEmpty_iff.mpr hfields)]
        rw [htext]
        exact .empty ho hfields
      · have hlt : o < h.size := by
          by_contra hout
          rw [fields_of_size_le (Nat.le_of_not_lt hout)] at hfields
          exact hfields rfl
        -- one more object is being written, and one fewer is left
        have hbelow (u : Value) : h.Renders (o :: path) u (h.writeUnder n (o :: path) u).1 := by
          apply ih
          · exact List.nodup_cons.mpr ⟨ho, hnodup⟩
          · exact List.forall_mem_cons.mpr ⟨hlt, hrange⟩
          · rw [List.length_cons]
            omega
        have htext : ∀ x u, (h.fields o).find? x = some u →
            (h.writeUnder n (o :: path) u).1 = (h.writeUnder n (o :: path) (h.get o x)).1 := by
          intro x u hu
          rw [get, hu, Option.getD_some]
        rw [writeUnder_object ho hfields, objectText_sorted hfields htext]
        refine .object ho ?_ (Table.pairwise_sorted _) (fun x => Table.mem_map_fst_sorted_iff) ?_
        · obtain ⟨x, hx⟩ := List.exists_mem_of_ne_nil _ hfields
          exact List.ne_nil_of_mem (Table.mem_map_fst_sorted_iff.mpr hx)
        · intro x u hu
          rw [← htext x u hu]
          exact hbelow u

theorem display_renders (h : Heap) (v : Value) : h.Renders [] v (h.display v) :=
  writeUnder_renders _ List.nodup_nil (List.forall_mem_nil _) (by simp) v

theorem Renders.unique {text text' : String} (hv : h.Renders path v text)
    (hv' : h.Renders path v text') : text = text' := by
  induction hv generalizing text' with
  | nested ho =>
    cases hv' with
    | nested ho' => rfl
    | empty ho' hnames' => exact absurd ho ho'
    | object ho' hne' hsorted' hmem' hfields' => exact absurd ho ho'
  | empty ho hnames =>
    cases hv' with
    | nested ho' => exact absurd ho' ho
    | empty ho' hnames' => rfl
    | object ho' hne' hsorted' hmem' hfields' =>
      obtain ⟨x, hx⟩ := List.exists_mem_of_ne_nil _ hne'
      rw [hmem', hnames] at hx
      cases hx
  | @object path o names text ho hne hsorted hmem hfields ih =>
    cases hv' with
    | nested ho' => exact absurd ho' ho
    | empty ho' hnames' =>
      obtain ⟨x, hx⟩ := List.exists_mem_of_ne_nil _ hne
      rw [hmem, hnames'] at hx
      cases hx
    | @object _ _ names' text' ho' hne' hsorted' hmem' hfields' =>
      obtain rfl : names = names' :=
        eq_of_pairwise_lt hsorted hsorted' fun x => (hmem x).trans (hmem' x).symm
      have htext : ∀ x ∈ names, text x = text' x := by
        intro x hx
        obtain ⟨u, hu⟩ := Option.isSome_iff_exists.mp (Table.isSome_find?_iff.mpr ((hmem x).mp hx))
        exact ih x u hu (hfields' x u hu)
      have hmap : (names.map fun x => x ++ ": " ++ text x) =
          names.map fun x => x ++ ": " ++ text' x := by
        apply List.map_congr_left
        intro x hx
        rw [htext x hx]
      rw [hmap]
  | _ =>
    cases hv'
    rfl

theorem renders_iff {text : String} : h.Renders [] v text ↔ h.display v = text := by
  constructor
  · intro htext
    exact (display_renders h v).unique htext
  · rintro rfl
    exact display_renders h v

theorem Renders.reorder {h' : Heap} {text : String} (ho : h.Reorders h')
    (hv : h.Renders path v text) : h'.Renders path v text := by
  have hnames (o : ObjectId) : (h'.fields o).names.Perm (h.fields o).names :=
    (ho o).map Prod.fst
  induction hv with
  | number path x => exact .number path x
  | boolean path b => exact .boolean path b
  | string path s => exact .string path s
  | null path => exact .null path
  | closure path k => exact .closure path k
  | native path x => exact .native path x
  | nested hmem => exact .nested hmem
  | @empty path o hout hempty =>
    have hperm := hnames o
    rw [hempty] at hperm
    exact .empty hout hperm.eq_nil
  | @object path o names text hout hne hsorted hmem hfields ih =>
    refine .object hout hne hsorted (fun x => (hmem x).trans (hnames o).mem_iff.symm) ?_
    intro x u hu
    rw [Table.find?_eq_of_perm (ho o)] at hu
    exact ih x u hu

/--
The text of a value over any heap, with whatever sharing and cycles, is its rendering from an empty
path. After any value, wherever it occurs, the same objects are being written as before it. Listing
the fields of the objects in another order does not change the text.
-/
theorem display_eq_iff_renders (h : Heap) (v : Value) :
    (∀ text, h.Renders [] v text ↔ h.display v = text) ∧
      (∀ n printing u, (h.writeUnder n printing u).2 = printing) ∧
      ∀ h', h.Reorders h' → h'.display v = h.display v := by
  refine ⟨fun text => renders_iff, writeUnder_restores h, ?_⟩
  intro h' ho
  exact renders_iff.mp ((display_renders h v).reorder ho)

example :
    let h : Heap :=
      ⟨#[.ofList [("self", .object 0), ("end", .object 1), ("also", .object 1)], ∅], .insertion⟩
    h.display (.object 0) = "\x7b also: \x7b\x7d, end: \x7b\x7d, self: \x7b...\x7d \x7d" := by
  cbv

end Heap

end ModuleScript
