import ModuleScript.Expr
import ModuleScript.Parser.Basic

/-!
Expressions from tokens. Calls and field accesses trail an operand, signs stand before it, and six
ranks of binary operators join the results. A nested expression comes after a token of its own.
-/

namespace ModuleScript

namespace Parser

def symbol (s : Symbol) : Parser Unit := expect (.symbol s)

def startsExpression : Token → Bool
  | .number _ | .string _ | .boolean _ | .identifier _ => true
  | .keyword k => k = .null_ || k = .this_
  | .symbol s => s = .openParen || s = .openBrace || s = .minus || s = .bang

def startExpression? (expr : Parser Expr) (t : Token) : Option (Parser Expr) :=
  if startsExpression t then some (unread t expr) else none

def startField? (expr : Parser Expr) : Token → Option (Parser (Name × Expr))
  | .identifier x => some do
      symbol .colon
      let e ← expr
      pure (x, e)
  | _ => none

def operand (expr : Parser Expr) : Parser Expr
  | .number x :: ts => .ok (.number x, ts)
  | .string s :: ts => .ok (.string s, ts)
  | .boolean b :: ts => .ok (.boolean b, ts)
  | .keyword .null_ :: ts => .ok (.null, ts)
  | .identifier x :: ts => .ok (.var x, ts)
  | .keyword .this_ :: ts => .ok (.var thisName, ts)
  | .symbol .openParen :: ts => (do
      let e ← expr
      symbol .closeParen
      pure e) ts
  | .symbol .openBrace :: ts => (do
      let fields ← listUntil (.symbol .closeBrace) (startField? expr)
      pure (Expr.object fields)) ts
  | ts => .error ⟨.operand, ts⟩

inductive Trailer where
  | call (args : List Expr)
  | get (x : Name)

def Trailer.apply (e : Expr) : Trailer → Expr
  | call args => .call e args
  | get x => .get e x

def startTrailer? (expr : Parser Expr) : Token → Option (Parser Trailer)
  | .symbol .openParen => some do
      let args ← listUntil (.symbol .closeParen) (startExpression? expr)
      pure (.call args)
  | .symbol .dot => some do
      let x ← identifier
      pure (.get x)
  | _ => none

def trailed (expr : Parser Expr) : Parser Expr := do
  let e ← operand expr
  let trailers ← many (startTrailer? expr)
  pure (trailers.foldl Trailer.apply e)

def startSign? : Token → Option (Parser UnaryOp)
  | .symbol s => (UnaryOp.ofSymbol? s).map pure
  | _ => none

def signed (expr : Parser Expr) : Parser Expr := do
  let signs ← many startSign?
  let e ← trailed expr
  pure (signs.foldr Expr.unary e)

def startBinary? (k : Nat) (right : Parser Expr) : Token → Option (Parser (BinaryOp × Expr))
  | .symbol s => (BinaryOp.ofSymbol? s).bind fun op =>
      if op.rank = k then some do
        let e ← right
        pure (op, e)
      else none
  | _ => none

def joined (expr : Parser Expr) : Nat → Parser Expr
  | 0 => signed expr
  | k + 1 => do
      let first ← joined expr k
      let rest ← many (startBinary? (k + 1) (joined expr k))
      pure (rest.foldl (fun left p => .binary p.1 left p.2) first)

/-- Expressions nested at most as deep as `bound` is long. -/
def expressionUpTo : List Token → Parser Expr
  | [] => fail .operand
  | _ :: bound => joined (expressionUpTo bound) 6

/-- Without tokens there is no expression, and a nested one comes after a token of its own. -/
def expression : Parser Expr := fun ts => expressionUpTo ts ts

end Parser

end ModuleScript
