import ModuleScript.Heap.Basic

/-!
The two equalities of values. `equal?` is the operator of the language, to which two objects already
under comparison count as equal; `same?` is the equality that the host sees, which has no answer
where comparing the fields would go on for ever.
-/

namespace ModuleScript

/-- A list of fields against the table `right`, up to the first that settles the answer. -/
def entriesEqual {ε : Type} (eq : Value → Value → Except ε Bool) (right : Table Value) :
    List (Name × Value) → Except ε Bool
  | [] => .ok true
  | (x, u) :: rest =>
    match right.find? x with
    | none => .ok false
    | some v =>
      match eq u v with
      | .ok true => entriesEqual eq right rest
      | answer => answer

def fieldsEqual {ε : Type} (eq : Value → Value → Except ε Bool) (left : List (Name × Value))
    (right : Table Value) : Except ε Bool :=
  if left.length = right.size then entriesEqual eq right left else .ok false

namespace Heap

/--
Equality of two values while the pairs `underway` of objects are under comparison, with room for
`n` more pairs.
-/
def equalUnder (h : Heap) (n : Nat) (underway : List (ObjectId × ObjectId)) (u v : Value) :
    Except Fault Bool :=
  if u.isCallable then .error (.typeMismatch [.boolean, .number] u.kind)
  else if v.isCallable then .error (.typeMismatch [.boolean, .number] v.kind)
  else match u, v with
    | .null, .null => .ok true
    | .null, _ => .ok false
    | _, .null => .ok false
    | .number a, .number b => .ok (a == b)
    | .boolean a, .boolean b => .ok (a == b)
    | .string a, .string b => .ok (a == b)
    | .object a, .object b =>
      if (a, b) ∈ underway then .ok true
      else match n with
        | 0 => .ok true
        | n + 1 => fieldsEqual (h.equalUnder n ((a, b) :: underway)) (h.visited a) (h.fields b)
    | _, _ => .error (.typeMismatch [u.kind] v.kind)

/-- Pairs under comparison are different, so their number bounds the depth. -/
def equal? (h : Heap) (u v : Value) : Except Fault Bool :=
  h.equalUnder (h.size * h.size + 1) [] u v

/-- Host equality of values nested at most `n` deep. Failing means that they are nested deeper. -/
def sameUpTo (h : Heap) : Nat → Value → Value → Except Unit Bool
  | _, .null, .null => .ok true
  | _, .number a, .number b => .ok (a == b)
  | _, .boolean a, .boolean b => .ok (a == b)
  | _, .string a, .string b => .ok (a == b)
  | _, .closure a, .closure b => .ok (a == b)
  | _, .native a, .native b => .ok (a == b)
  | 0, .object a, .object b => if a = b then .ok true else .error ()
  | n + 1, .object a, .object b =>
    if a = b then .ok true else fieldsEqual (sameUpTo h n) (h.visited a) (h.fields b)
  | _, _, _ => .ok false

/-- A pair of objects inside itself is never settled, so the number of pairs bounds the depth. -/
def same? (h : Heap) (u v : Value) : Option Bool :=
  (h.sameUpTo (h.size * h.size + 1) u v).toOption

end Heap

end ModuleScript
