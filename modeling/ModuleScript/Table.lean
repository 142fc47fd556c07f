/-!
Tables from names to things. A table lists its entries in the order in which their names first
came in, and no name occurs twice. Main statement: `find?_insert`, putting `a` in under `x`
changes what is found under `x` and nothing else.
-/

namespace ModuleScript

abbrev Name := String

def findEntry {α : Type} (x : Name) : List (Name × α) → Option α
  | [] => none
  | (y, b) :: rest => if y = x then some b else findEntry x rest

/-- Replaces the first entry under `x`, or adds one at the end. -/
def putEntry {α : Type} (x : Name) (a : α) : List (Name × α) → List (Name × α)
  | [] => [(x, a)]
  | (y, b) :: rest => if y = x then (x, a) :: rest else (y, b) :: putEntry x a rest

theorem map_fst_putEntry {α : Type} (x : Name) (a : α) (l : List (Name × α)) :
    (putEntry x a l).map Prod.fst =
      if x ∈ l.map Prod.fst then l.map Prod.fst else l.map Prod.fst ++ [x] := by
  induction l with
  | nil => rfl
  | cons p rest ih =>
    obtain ⟨y, b⟩ := p
    by_cases h : y = x
    · simp [putEntry, h]
    · have h' : x ≠ y := fun e => h e.symm
      by_cases hr : x ∈ rest.map Prod.fst <;> simp_all [putEntry]

theorem findEntry_putEntry {α : Type} (x y : Name) (a : α) (l : List (Name × α)) :
    findEntry y (putEntry x a l) = if y = x then some a else findEntry y l := by
  induction l with
  | nil => simp [putEntry, findEntry, eq_comm]
  | cons p rest ih =>
    obtain ⟨z, b⟩ := p
    by_cases hz : z = x
    · subst hz
      by_cases hy : y = z
      · simp [putEntry, findEntry, hy]
      · simp [putEntry, findEntry, hy, Ne.symm hy]
    · by_cases hy : z = y
      · subst hy
        simp [putEntry, findEntry, hz]
      · simp [putEntry, findEntry, hz, hy, ih]

structure Table (α : Type) where
  entries : List (Name × α)
  nodup : (entries.map Prod.fst).Nodup

namespace Table

variable {α : Type}

protected def empty : Table α := ⟨[], by simp⟩

instance : EmptyCollection (Table α) := ⟨Table.empty⟩

instance : Inhabited (Table α) := ⟨∅⟩

def names (t : Table α) : List Name := t.entries.map Prod.fst

def size (t : Table α) : Nat := t.entries.length

def isEmpty (t : Table α) : Bool := t.entries.isEmpty

def find? (t : Table α) (x : Name) : Option α := findEntry x t.entries

/-- Whatever was under `x` before is replaced and keeps its place. -/
def insert (t : Table α) (x : Name) (a : α) : Table α where
  entries := putEntry x a t.entries
  nodup := by
    rw [map_fst_putEntry]
    split
    · exact t.nodup
    · rename_i h
      simpa [List.nodup_append, t.nodup] using fun y b hb e => h (by simpa [← e] using ⟨b, hb⟩)

/-- Of several entries under one name the last counts. -/
def ofList (l : List (Name × α)) : Table α :=
  l.foldl (fun t p => t.insert p.1 p.2) ∅

@[simp] theorem find?_empty (x : Name) : (∅ : Table α).find? x = none := rfl

theorem find?_insert (t : Table α) (x y : Name) (a : α) :
    (t.insert x a).find? y = if y = x then some a else t.find? y :=
  findEntry_putEntry x y a t.entries

theorem names_insert (t : Table α) (x : Name) (a : α) :
    (t.insert x a).names = if x ∈ t.names then t.names else t.names ++ [x] :=
  map_fst_putEntry x a t.entries

end Table

end ModuleScript
