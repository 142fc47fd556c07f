import ModuleScript.Value

/-!
The heap of objects. An object is a table of fields and is never given up; a number that no object
has counts as an object without fields.
-/

namespace ModuleScript

/--
In which order the fields of an object are visited. That is up to the way in which fields are
stored, so that any arrangement is allowed for.
-/
structure FieldOrder where
  arrange : ObjectId → List (Name × Value) → List (Name × Value)
  perm : ∀ o entries, (arrange o entries).Perm entries

def FieldOrder.insertion : FieldOrder where
  arrange _ entries := entries
  perm _ entries := .refl entries

structure Heap where
  objects : Array (Table Value)
  order : FieldOrder

namespace Heap

protected def empty (order : FieldOrder := .insertion) : Heap := ⟨#[], order⟩

def size (h : Heap) : Nat := h.objects.size

def fields (h : Heap) (o : ObjectId) : Table Value := h.objects[o]?.getD ∅

def visited (h : Heap) (o : ObjectId) : List (Name × Value) :=
  h.order.arrange o (h.fields o).entries

def next (h : Heap) : ObjectId := h.objects.size

def alloc (h : Heap) (fields : Table Value) : Heap := { h with objects := h.objects.push fields }

def set (h : Heap) (o : ObjectId) (x : Name) (v : Value) : Heap :=
  { h with objects := h.objects.modify o (·.insert x v) }

/-- What a field holds; a field that is not there holds null. -/
def get (h : Heap) (o : ObjectId) (x : Name) : Value := ((h.fields o).find? x).getD .null

theorem perm_visited (h : Heap) (o : ObjectId) : (h.visited o).Perm (h.fields o).entries :=
  h.order.perm o _

@[simp] theorem length_visited (h : Heap) (o : ObjectId) :
    (h.visited o).length = (h.fields o).size := (h.perm_visited o).length_eq

@[simp] theorem mem_visited_iff {h : Heap} {o : ObjectId} {entry : Name × Value} :
    entry ∈ h.visited o ↔ entry ∈ (h.fields o).entries := (h.perm_visited o).mem_iff

@[simp] theorem size_alloc (h : Heap) (fields : Table Value) :
    (h.alloc fields).size = h.size + 1 := Array.size_push ..

@[simp] theorem size_set (h : Heap) (o : ObjectId) (x : Name) (v : Value) :
    (h.set o x v).size = h.size := Array.size_modify ..

theorem fields_alloc (h : Heap) (fields : Table Value) (o : ObjectId) :
    (h.alloc fields).fields o = if o = h.next then fields else h.fields o := by
  by_cases e : o = h.objects.size <;> simp [alloc, Heap.fields, next, Array.getElem?_push, e]

theorem set_of_le {h : Heap} {o : ObjectId} (ho : h.size ≤ o) (x : Name) (v : Value) :
    h.set o x v = h := by
  have ho' : ¬o < h.objects.size := Nat.not_lt_of_le ho
  simp [set, Array.modify, Array.modifyM, ho']

theorem fields_set {h : Heap} {o : ObjectId} (ho : o < h.size) (x : Name) (v : Value)
    (o' : ObjectId) :
    (h.set o x v).fields o' = if o' = o then (h.fields o).insert x v else h.fields o' := by
  have hs : o < h.objects.size := ho
  by_cases e : o = o'
  · subst e
    simp [set, fields, hs, Array.getElem_modify]
  · simp [set, fields, Array.getElem?_modify, e, Ne.symm e]

end Heap

end ModuleScript
