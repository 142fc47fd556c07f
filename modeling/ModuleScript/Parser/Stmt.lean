import ModuleScript.Parser.Expr
import ModuleScript.Stmt

/-!
Statements and modules from tokens. A statement is told by its first token, and `let x = e;` stands
for two. An expression turns into the target of an assignment when it starts with a name, ends in a
name or a field, and is followed by `=`.
-/

namespace ModuleScript

namespace Parser

def word (k : Keyword) : Parser Unit := expect (.keyword k)

def names (closing : Token) : Parser (List Name) := listUntil closing startName?

def parenthesised : Parser Expr := do
  symbol .openParen
  let e ← expression
  symbol .closeParen
  pure e

def blockEnd : Parser Unit
  | .symbol .closeBrace :: ts => .ok ((), ts)
  | ts => .error ⟨.statementOrBrace, ts⟩

/-- Inside a block every token other than the closing brace starts a statement. -/
def startStatement? (stmt : Parser (List Stmt)) (t : Token) : Option (Parser (List Stmt)) :=
  if t = .symbol .closeBrace then none else some (unread t stmt)

def block (stmt : Parser (List Stmt)) : Parser (List Stmt) := do
  symbol .openBrace
  let body ← many (startStatement? stmt)
  blockEnd
  pure body.flatten

def routine (stmt : Parser (List Stmt)) : Parser (Routine Stmt) := do
  symbol .openParen
  let params ← names (.symbol .closeParen)
  let body ← block stmt
  pure ⟨params, body⟩

def declaration : Parser (List Stmt) := do
  let x ← identifier
  if ← accept (.symbol .assign) then
    let e ← expression
    symbol .semicolon
    pure [.declare x, .assign x e]
  else
    symbol .semicolon
    pure [.declare x]

def returning : Parser (List Stmt) := do
  if ← accept (.symbol .semicolon) then
    pure [.ret none]
  else
    let e ← expression
    symbol .semicolon
    pure [.ret (some e)]

def alternative (stmt : Parser (List Stmt)) : Parser (List Stmt)
  | .keyword .if_ :: ts => stmt (.keyword .if_ :: ts)
  | ts => block stmt ts

def conditional (stmt : Parser (List Stmt)) : Parser (List Stmt) := do
  let condition ← parenthesised
  let yes ← block stmt
  word .else_
  let no ← alternative stmt
  pure [.ite condition yes no]

def whileLoop (stmt : Parser (List Stmt)) : Parser (List Stmt) := do
  let condition ← parenthesised
  let body ← block stmt
  pure [.loop condition body]

def function (stmt : Parser (List Stmt)) : Parser (List Stmt) := do
  let x ← identifier
  let r ← routine stmt
  pure [.function x r]

def startMethod? (stmt : Parser (List Stmt)) : Token → Option (Parser (Name × Routine Stmt))
  | .identifier x => some do
      let r ← routine stmt
      pure (x, r)
  | _ => none

def classEnd : Parser Unit
  | .symbol .closeBrace :: ts => .ok ((), ts)
  | .keyword .constructor_ :: ts => .error ⟨.soleConstructor, .keyword .constructor_ :: ts⟩
  | ts => .error ⟨.memberOrBrace, ts⟩

/-- Methods with at most one constructor among them; an empty one stands in for none. -/
def members (stmt : Parser (List Stmt)) :
    Parser (Routine Stmt × List (Name × Routine Stmt)) := do
  let before ← many (startMethod? stmt)
  if ← accept (.keyword .constructor_) then
    let construct ← routine stmt
    let after ← many (startMethod? stmt)
    classEnd
    pure (construct, before ++ after)
  else
    classEnd
    pure (⟨[], []⟩, before)

def classDeclaration (stmt : Parser (List Stmt)) : Parser (List Stmt) := do
  let x ← identifier
  symbol .openBrace
  let (construct, methods) ← members stmt
  pure [.classDecl x construct methods]

def importing : Parser (List Stmt) := do
  let xs ← names (.keyword .from_)
  let m ← identifier
  symbol .semicolon
  pure [.importFrom m xs]

def startsWithName : List Token → Bool
  | .identifier _ :: _ => true
  | .keyword .this_ :: _ => true
  | _ => false

def assignTo? : Expr → Option (Expr → Stmt)
  | .var x => some (.assign x)
  | .get e x => some (.set e x)
  | _ => none

/-- The rest of a statement whose first expression is `e`. -/
def afterExpression (e : Expr) : Option (Expr → Stmt) → Parser (List Stmt)
  | some assign => do
      if ← accept (.symbol .assign) then
        let value ← expression
        symbol .semicolon
        pure [assign value]
      else if ← accept (.symbol .semicolon) then
        pure [.eval e]
      else fail .assignOrSemicolon
  | none => do
      symbol .semicolon
      pure [.eval e]

def expressionStatement : Parser (List Stmt) := fun ts => (do
  let e ← expression
  afterExpression e (if startsWithName ts then assignTo? e else none)) ts

def statementWith (stmt : Parser (List Stmt)) : Parser (List Stmt)
  | .keyword .let_ :: ts => declaration ts
  | .keyword .return_ :: ts => returning ts
  | .keyword .if_ :: ts => conditional stmt ts
  | .keyword .while_ :: ts => whileLoop stmt ts
  | .keyword .function_ :: ts => function stmt ts
  | .keyword .class_ :: ts => classDeclaration stmt ts
  | .keyword .import_ :: ts => importing ts
  | .keyword .this_ :: .symbol .dot :: ts =>
      expressionStatement (.keyword .this_ :: .symbol .dot :: ts)
  | .keyword .this_ :: ts => .error ⟨.token (.symbol .dot), ts⟩
  | ts => expressionStatement ts

/-- Statements nested at most as deep as `bound` is long. -/
def statementUpTo : List Token → Parser (List Stmt)
  | [] => fail .operand
  | _ :: bound => statementWith (statementUpTo bound)

def statement : Parser (List Stmt) := fun ts => statementUpTo ts ts

def exports : Parser (List Name) := do
  if ← accept (.keyword .export_) then names (.symbol .semicolon) else pure []

def endOfInput : Parser Unit
  | [] => .ok ((), [])
  | ts => .error ⟨.endOfInput, ts⟩

def module : Parser Module := do
  word .module_
  let name ← identifier
  let body ← block statement
  let exports ← exports
  endOfInput
  pure ⟨name, body, exports⟩

end Parser

def parseModule (ts : List Token) : Except ParseError Module :=
  match Parser.module ts with
  | .ok (m, _) => .ok m
  | .error e => .error e

end ModuleScript
