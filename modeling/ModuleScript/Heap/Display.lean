import ModuleScript.Heap.Basic
import ModuleScript.Number.Display

/-!
The text of a value. Objects are written with their fields in the order of their names, and an
object inside itself is written as dots: the objects that are being written are kept in a list, each
from its beginning to its end. They are all different, so the number of objects bounds the depth.
-/

namespace ModuleScript

def Table.sorted {α : Type} (t : Table α) : List (Name × α) :=
  t.entries.mergeSort fun p q => p.1 ≤ q.1

def objectText : List (Name × String) → String
  | [] => "\x7b\x7d"
  | fields => "\x7b " ++ ", ".intercalate (fields.map fun p => p.1 ++ ": " ++ p.2) ++ " \x7d"

def nestedText : String := "\x7b...\x7d"

/--
The texts of fields, written one after the other. Writing a value gives its text and the objects
that are being written after it.
-/
def writeFields (write : List ObjectId → Value → String × List ObjectId) :
    List ObjectId → List (Name × Value) → List (Name × String) × List ObjectId
  | printing, [] => ([], printing)
  | printing, (x, v) :: rest =>
    let first := write printing v
    let others := writeFields write first.2 rest
    ((x, first.1) :: others.1, others.2)

namespace Heap

/--
The text of a value while the objects `printing` are being written, with room for `n` more objects
around one another, and the objects that are being written after it.
-/
def writeUnder (h : Heap) : Nat → List ObjectId → Value → String × List ObjectId
  | _, printing, .number x => (numberText x, printing)
  | _, printing, .boolean b => (if b then "true" else "false", printing)
  | _, printing, .string s => (s, printing)
  | _, printing, .null => ("null", printing)
  | _, printing, .closure _ => ("<closure>", printing)
  | _, printing, .native x => ("<native function " ++ x ++ ">", printing)
  | 0, printing, .object _ => (nestedText, printing)
  | n + 1, printing, .object o =>
    if o ∈ printing then (nestedText, printing)
    else if (h.fields o).isEmpty then (objectText [], (o :: printing).erase o)
    else
      let written := writeFields (writeUnder h n) (o :: printing) (h.fields o).sorted
      (objectText written.1, written.2.erase o)

def display (h : Heap) (v : Value) : String := (h.writeUnder (h.size + 1) [] v).1

end Heap

end ModuleScript
