import ModuleScript.Token

/-!
Expressions and their operators. Binary operators have ranks, from the tightest to the loosest, and
group to the left.
-/

namespace ModuleScript

inductive UnaryOp where
  | negate
  | not
deriving DecidableEq, Repr

inductive BinaryOp where
  | add
  | subtract
  | multiply
  | divide
  | and
  | or
  | less
  | greater
  | lessEqual
  | greaterEqual
  | equal
  | notEqual
deriving DecidableEq, Repr

inductive Expr where
  | number (x : Float)
  | string (s : String)
  | boolean (b : Bool)
  | null
  | var (x : Name)
  | unary (op : UnaryOp) (e : Expr)
  | binary (op : BinaryOp) (left right : Expr)
  | call (callee : Expr) (args : List Expr)
  | object (fields : List (Name × Expr))
  | get (e : Expr) (x : Name)

namespace BinaryOp

def symbol : BinaryOp → Symbol
  | add => .plus
  | subtract => .minus
  | multiply => .star
  | divide => .slash
  | and => .ampersand
  | or => .bar
  | less => .less
  | greater => .greater
  | lessEqual => .lessEqual
  | greaterEqual => .greaterEqual
  | equal => .equal
  | notEqual => .notEqual

def ofSymbol? : Symbol → Option BinaryOp
  | .plus => some add
  | .minus => some subtract
  | .star => some multiply
  | .slash => some divide
  | .ampersand => some and
  | .bar => some or
  | .less => some less
  | .greater => some greater
  | .lessEqual => some lessEqual
  | .greaterEqual => some greaterEqual
  | .equal => some equal
  | .notEqual => some notEqual
  | _ => none

theorem ofSymbol?_eq_some_iff {s : Symbol} {op : BinaryOp} :
    ofSymbol? s = some op ↔ s = op.symbol := by
  cases op <;> cases s <;> decide

/-- A lower rank binds tighter. -/
def rank : BinaryOp → Nat
  | multiply | divide => 1
  | add | subtract => 2
  | less | greater | lessEqual | greaterEqual => 3
  | equal | notEqual => 4
  | and => 5
  | or => 6

end BinaryOp

namespace UnaryOp

def symbol : UnaryOp → Symbol
  | negate => .minus
  | not => .bang

def ofSymbol? : Symbol → Option UnaryOp
  | .minus => some negate
  | .bang => some not
  | _ => none

theorem ofSymbol?_eq_some_iff {s : Symbol} {op : UnaryOp} :
    ofSymbol? s = some op ↔ s = op.symbol := by
  cases op <;> cases s <;> decide

end UnaryOp

/-- The name under which `this` is looked up. -/
def thisName : Name := "this"

end ModuleScript
