import ModuleScript.Expr
import ModuleScript.Heap.Equality

/-!
Operators on values. Both operands of a binary operator are there before either is looked at, and
the left one is checked first.
-/

namespace ModuleScript

def mismatch (expected : Kind) (v : Value) : Except Fault Value :=
  .error (.typeMismatch [expected] v.kind)

def UnaryOp.apply : UnaryOp → Value → Except Fault Value
  | negate, .number x => .ok (.number (-x))
  | negate, v => mismatch .number v
  | not, .boolean b => .ok (.boolean !b)
  | not, v => mismatch .boolean v

def onNumbers (f : Float → Float → Value) : Value → Value → Except Fault Value
  | .number a, .number b => .ok (f a b)
  | .number _, v => mismatch .number v
  | u, _ => mismatch .number u

def onBooleans (f : Bool → Bool → Bool) : Value → Value → Except Fault Value
  | .boolean a, .boolean b => .ok (.boolean (f a b))
  | .boolean _, v => mismatch .boolean v
  | u, _ => mismatch .boolean u

def BinaryOp.apply (h : Heap) : BinaryOp → Value → Value → Except Fault Value
  | add => onNumbers fun a b => .number (a + b)
  | subtract => onNumbers fun a b => .number (a - b)
  | multiply => onNumbers fun a b => .number (a * b)
  | divide => onNumbers fun a b => .number (a / b)
  | less => onNumbers fun a b => .boolean (a < b)
  | greater => onNumbers fun a b => .boolean (b < a)
  | lessEqual => onNumbers fun a b => .boolean (a ≤ b)
  | greaterEqual => onNumbers fun a b => .boolean (b ≤ a)
  | and => onBooleans (· && ·)
  | or => onBooleans (· || ·)
  | equal => fun u v => (h.equal? u v).map .boolean
  | notEqual => fun u v => (h.equal? u v).map fun b => .boolean !b

end ModuleScript
