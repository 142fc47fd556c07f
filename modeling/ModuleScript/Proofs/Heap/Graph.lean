import Mathlib.Logic.Relation
import ModuleScript.Proofs.Heap.Comparison
import ModuleScript.Proofs.Table

/-!
The graph of the heap, in which an object leads to what stands in its fields. A value is acyclic
when nothing that can be reached from it encloses itself. The path to an occurrence of a value lists
the objects around it, and an acyclic object is never on the path to itself (`Around.not_mem`).
-/

namespace ModuleScript

namespace Heap

inductive HasField (h : Heap) : Value → Value → Prop
  | intro {o : ObjectId} {x : Name} {v : Value} :
      (h.fields o).find? x = some v → HasField h (.object o) v

def Reaches (h : Heap) : Value → Value → Prop := Relation.ReflTransGen h.HasField

def Encloses (h : Heap) : Value → Value → Prop := Relation.TransGen h.HasField

def Acyclic (h : Heap) (v : Value) : Prop := ∀ w, h.Reaches v w → ¬h.Encloses w w

def Around (h : Heap) (path : List ObjectId) (v : Value) : Prop :=
  ∀ o ∈ path, h.Encloses (.object o) v

variable {h : Heap} {u v w : Value} {o : ObjectId} {path : List ObjectId}

theorem reaches_refl (v : Value) : h.Reaches v v := .refl

theorem HasField.reaches (hfield : h.HasField u v) (hv : h.Reaches v w) : h.Reaches u w :=
  .head hfield hv

theorem Acyclic.field (hu : h.Acyclic u) (hfield : h.HasField u v) : h.Acyclic v :=
  fun w hw => hu w (hfield.reaches hw)

theorem around_nil (v : Value) : h.Around [] v := List.forall_mem_nil _

theorem Around.cons (hpath : h.Around path (.object o)) (hfield : h.HasField (.object o) v) :
    h.Around (o :: path) v :=
  List.forall_mem_cons.mpr ⟨.single hfield, fun p hp => (hpath p hp).tail hfield⟩

theorem Around.not_mem (hpath : h.Around path (.object o)) (ho : h.Acyclic (.object o)) :
    o ∉ path :=
  fun hmem => ho _ (reaches_refl _) (hpath o hmem)

theorem HasField.lt_size (hfield : h.HasField (.object o) v) : o < h.size := by
  obtain ⟨hv⟩ := hfield
  by_contra hout
  rw [fields_of_size_le (Nat.le_of_not_lt hout)] at hv
  cases hv

theorem forall_hasField {P : Value → Value → Prop}
    (hP : ∀ o < h.size, ∀ entry ∈ (h.fields o).entries, P (.object o) entry.2) :
    ∀ v w, h.HasField v w → P v w := by
  intro v w hfield
  cases hfield with
  | @intro o x w hw =>
    have ho : o < h.size := HasField.lt_size (.intro hw)
    exact hP o ho (x, w) (Table.find?_eq_some_iff.mp hw)

/-- Where following a field lowers some rank there are no cycles. -/
theorem acyclic_of_rank (rank : Value → Nat)
    (hrank : ∀ v w, h.HasField v w → rank w < rank v) (v : Value) : h.Acyclic v := by
  have hlt {v w : Value} (hw : h.Encloses v w) : rank w < rank v := by
    induction hw with
    | single hfield => exact hrank _ _ hfield
    | tail _ hfield ih => exact Nat.lt_trans (hrank _ _ hfield) ih
  intro w _ hcycle
  exact Nat.lt_irrefl _ (hlt hcycle)

/-- The first object has one object in both fields, the second has two that are alike. -/
def sharing : Heap where
  objects := #[.ofList [("a", .object 2), ("b", .object 2)],
    .ofList [("b", .object 3), ("a", .object 2)], .ofList [("n", .number 1.5)],
    .ofList [("n", .number 1.5)]]
  order := .insertion

def sharingRank : Value → Nat
  | .object o => 4 - o
  | _ => 0

theorem acyclic_sharing (v : Value) : sharing.Acyclic v := by
  refine acyclic_of_rank sharingRank (forall_hasField ?_) v
  decide

theorem number_or_object_of_sharing (hv : v.kind = .object) (hw : sharing.Reaches v w) :
    w = .number 1.5 ∨ w.kind = .object := by
  have hfields : ∀ v w, sharing.HasField v w → w = .number 1.5 ∨ w.kind = .object :=
    forall_hasField (by decide)
  rcases Relation.ReflTransGen.cases_tail hw with rfl | ⟨u, -, huw⟩
  · exact .inr hv
  · exact hfields u w huw

end Heap

end ModuleScript
