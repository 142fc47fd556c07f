import ModuleScript.Proofs.Grammar

/-!
Modules as tokens. An expression is parenthesised where the ranks of the operators require it, and
as often as one likes beyond that: `Extra` says how many more pairs stand around the expression at
each place. The target of an assignment has to start with a name and goes without.
-/

namespace ModuleScript

namespace Printing

open Grammar (inParens inBraces)

/-- How many pairs of parentheses stand around the expression at a place, beyond those required. -/
abbrev Extra : Type := List Nat → Nat

def Extra.part (extra : Extra) (i : Nat) : Extra := fun place => extra (i :: place)

def parens : Nat → List Token → List Token
  | 0, ts => ts
  | n + 1, ts => inParens (parens n ts)

/-- How loosely an expression is held together: by no operator, by a sign, or by a binary operator
of some rank. -/
def level : Expr → Nat
  | .unary _ _ => 1
  | .binary op _ _ => op.rank + 1
  | _ => 0

def top : Nat := 7

def upTo (limit : Nat) (extra : Extra) (e : Expr) (ts : List Token) : List Token :=
  parens (extra [] + if level e ≤ limit then 0 else 1) ts

def nameToken (x : Name) : Token := if x = thisName then .keyword .this_ else .identifier x

def commas : List (List Token) → List Token
  | [] => []
  | [ts] => ts
  | ts :: tss => ts ++ .symbol .comma :: commas tss

def names (xs : List Name) : List Token := commas (xs.map fun x => [.identifier x])

mutual

def expr (extra : Extra) : Expr → List Token
  | .number x => [.number x]
  | .string s => [.string s]
  | .boolean b => [.boolean b]
  | .null => [.keyword .null_]
  | .var x => [nameToken x]
  | .unary op e => .symbol op.symbol :: upTo 1 (extra.part 0) e (expr (extra.part 0) e)
  | .binary op left right =>
      upTo (op.rank + 1) (extra.part 0) left (expr (extra.part 0) left) ++
        .symbol op.symbol :: upTo op.rank (extra.part 1) right (expr (extra.part 1) right)
  | .call callee args =>
      upTo 0 (extra.part 0) callee (expr (extra.part 0) callee) ++
        inParens (commas (arguments extra 1 args))
  | .object fields => inBraces (commas (entries extra 0 fields))
  | .get e x =>
      upTo 0 (extra.part 0) e (expr (extra.part 0) e) ++ [.symbol .dot, .identifier x]

def arguments (extra : Extra) (i : Nat) : List Expr → List (List Token)
  | [] => []
  | e :: es => upTo top (extra.part i) e (expr (extra.part i) e) :: arguments extra (i + 1) es

def entries (extra : Extra) (i : Nat) : List (Name × Expr) → List (List Token)
  | [] => []
  | (x, e) :: fields =>
      (.identifier x :: .symbol .colon :: upTo top (extra.part i) e (expr (extra.part i) e)) ::
        entries extra (i + 1) fields

end

def whole (extra : Extra) (e : Expr) : List Token := upTo top extra e (expr extra e)

/-- The object whose field is assigned to: calls and field accesses over a variable. -/
def target (extra : Extra) : Expr → List Token
  | .call callee args =>
      target (extra.part 0) callee ++ inParens (commas (arguments extra 1 args))
  | .get e x => target (extra.part 0) e ++ [.symbol .dot, .identifier x]
  | e => expr extra e

mutual

def stmt (extra : Extra) : Stmt → List Token
  | .declare x => [.keyword .let_, .identifier x, .symbol .semicolon]
  | .assign x e =>
      .identifier x :: .symbol .assign :: whole (extra.part 0) e ++ [.symbol .semicolon]
  | .ret none => [.keyword .return_, .symbol .semicolon]
  | .ret (some e) => .keyword .return_ :: whole (extra.part 0) e ++ [.symbol .semicolon]
  | .eval e => inParens (whole (extra.part 0) e) ++ [.symbol .semicolon]
  | .function x r => .keyword .function_ :: .identifier x :: routine extra r
  | .classDecl x construct ms =>
      .keyword .class_ :: .identifier x ::
        inBraces (.keyword .constructor_ :: routine (extra.part 0) construct ++ methods extra 1 ms)
  | .ite condition yes no =>
      .keyword .if_ :: inParens (whole (extra.part 0) condition) ++
        inBraces (stmts (extra.part 1) 0 yes) ++ .keyword .else_ ::
          inBraces (stmts (extra.part 2) 0 no)
  | .loop condition body =>
      .keyword .while_ :: inParens (whole (extra.part 0) condition) ++
        inBraces (stmts (extra.part 1) 0 body)
  | .set object x e =>
      target (extra.part 0) object ++ .symbol .dot :: .identifier x :: .symbol .assign ::
        whole (extra.part 1) e ++ [.symbol .semicolon]
  | .importFrom source xs =>
      .keyword .import_ :: names xs ++
        [.keyword .from_, .identifier source, .symbol .semicolon]

def stmts (extra : Extra) (i : Nat) : List Stmt → List Token
  | [] => []
  | s :: ss => stmt (extra.part i) s ++ stmts extra (i + 1) ss

def routine (extra : Extra) : Routine Stmt → List Token
  | ⟨params, body⟩ => inParens (names params) ++ inBraces (stmts extra 0 body)

def methods (extra : Extra) (i : Nat) : List (Name × Routine Stmt) → List Token
  | [] => []
  | (x, r) :: ms => .identifier x :: routine (extra.part i) r ++ methods extra (i + 1) ms

end

def module (extra : Extra) (m : Module) : List Token :=
  .keyword .module_ :: .identifier m.name :: inBraces (stmts extra 0 m.body) ++
    if m.exports = [] then [] else .keyword .export_ :: names m.exports ++ [.symbol .semicolon]

/-! What can be assigned to -/

def isChain : Expr → Bool
  | .var _ => true
  | .call callee _ => isChain callee
  | .get e _ => isChain e
  | _ => false

/-- A chain whose first part is a call of `this`. -/
def callsThis : Expr → Bool
  | .call (.var x) _ => x = thisName
  | .call callee _ => callsThis callee
  | .get e _ => callsThis e
  | _ => false

mutual

/-- Each setter inside has as its object a chain over a variable, where a field access and not a
call comes first if the variable is `this`. -/
def settable : Stmt → Bool
  | .set object _ _ => isChain object && !callsThis object
  | .function _ r => settableRoutine r
  | .classDecl _ construct ms => settableRoutine construct && settableMethods ms
  | .ite _ yes no => settableAll yes && settableAll no
  | .loop _ body => settableAll body
  | _ => true

def settableAll : List Stmt → Bool
  | [] => true
  | s :: ss => settable s && settableAll ss

def settableRoutine : Routine Stmt → Bool
  | ⟨_, body⟩ => settableAll body

def settableMethods : List (Name × Routine Stmt) → Bool
  | [] => true
  | (_, r) :: ms => settableRoutine r && settableMethods ms

end

example : module (fun _ => 0) ⟨"m", [.ret (some (.binary .multiply
      (.binary .add (.var "a") (.var "b")) (.unary .negate (.get (.var "c") "d"))))], []⟩ =
    [.keyword .module_, .identifier "m", .symbol .openBrace, .keyword .return_,
      .symbol .openParen, .identifier "a", .symbol .plus, .identifier "b", .symbol .closeParen,
      .symbol .star, .symbol .minus, .identifier "c", .symbol .dot, .identifier "d",
      .symbol .semicolon, .symbol .closeBrace] := by
  decide

end Printing

end ModuleScript
