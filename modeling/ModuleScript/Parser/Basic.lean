import ModuleScript.Token

/-!
Parsers over lists of tokens. A parser gives a result and the tokens that it leaves, or says what
it expected and in front of which tokens it stopped. Repetition is driven by the first token of an
item: `many start?` reads items as long as `start?` knows how to go on after the next token.
-/

namespace ModuleScript

inductive Expected where
  | token (t : Token)
  | identifier
  | operand
  | separator (closing : Token)
  | statementOrBrace
  | memberOrBrace
  | soleConstructor
  | assignOrSemicolon
  | endOfInput
deriving DecidableEq

def Expected.text : Expected → String
  | token t => t.text
  | identifier => "identifier"
  | operand => "identifier or literal"
  | separator closing => ", or " ++ closing.text
  | statementOrBrace => "start of statement or \x7d"
  | memberOrBrace => "\x7d or class member"
  | soleConstructor => "at most one constructor"
  | assignOrSemicolon => "= or ;"
  | endOfInput => "end of input"

/-- What was expected in front of the tokens `rest`. -/
structure ParseError where
  expected : Expected
  rest : List Token
deriving DecidableEq

def ParseError.found (e : ParseError) : String :=
  match e.rest with
  | [] => "end of input"
  | t :: _ => t.text

def ParseError.message (e : ParseError) : String :=
  "Expected " ++ e.expected.text ++ ", found " ++ e.found

def Parser (α : Type) : Type := List Token → Except ParseError (α × List Token)

namespace Parser

variable {α β : Type}

protected def pure (a : α) : Parser α := fun ts => .ok (a, ts)

protected def bind (p : Parser α) (f : α → Parser β) : Parser β := fun ts =>
  match p ts with
  | .ok (a, rest) => f a rest
  | .error e => .error e

instance : Monad Parser where
  pure := Parser.pure
  bind := Parser.bind

theorem pure_apply (a : α) (ts : List Token) : (pure a : Parser α) ts = .ok (a, ts) := rfl

theorem bind_apply (p : Parser α) (f : α → Parser β) (ts : List Token) :
    (p >>= f) ts = match p ts with
      | .ok (a, rest) => f a rest
      | .error e => .error e := rfl

theorem bind_eq_ok_iff {p : Parser α} {f : α → Parser β} {ts rest : List Token} {b : β} :
    (p >>= f) ts = .ok (b, rest) ↔ ∃ a mid, p ts = .ok (a, mid) ∧ f a mid = .ok (b, rest) := by
  rw [bind_apply]
  cases h : p ts with
  | error e => simp
  | ok r => exact ⟨fun hf => ⟨r.1, r.2, rfl, hf⟩, fun ⟨a, mid, hr, hf⟩ => by cases hr; exact hf⟩

theorem bind_eq_error_iff {p : Parser α} {f : α → Parser β} {ts : List Token} {e : ParseError} :
    (p >>= f) ts = .error e ↔
      p ts = .error e ∨ ∃ a mid, p ts = .ok (a, mid) ∧ f a mid = .error e := by
  rw [bind_apply]
  cases h : p ts with
  | error e' => simp
  | ok r =>
    refine ⟨fun hf => .inr ⟨r.1, r.2, rfl, hf⟩, ?_⟩
    rintro (hr | ⟨a, mid, hr, hf⟩)
    · cases hr
    · cases hr
      exact hf

def fail (expected : Expected) : Parser α := fun ts => .error ⟨expected, ts⟩

def expect (t : Token) : Parser Unit
  | [] => .error ⟨.token t, []⟩
  | u :: ts => if u = t then .ok ((), ts) else .error ⟨.token t, u :: ts⟩

def accept (t : Token) : Parser Bool
  | [] => .ok (false, [])
  | u :: ts => if u = t then .ok (true, ts) else .ok (false, u :: ts)

def identifier : Parser Name
  | .identifier x :: ts => .ok (x, ts)
  | ts => .error ⟨.identifier, ts⟩

def unread (t : Token) (p : Parser α) : Parser α := fun ts => p (t :: ts)

def manyUpTo (start? : Token → Option (Parser α)) : List Token → Parser (List α)
  | _ :: bound, t :: ts =>
    match start? t with
    | some item => (do
        let a ← item
        let rest ← manyUpTo start? bound
        pure (a :: rest)) ts
    | none => .ok ([], t :: ts)
  | _, ts => .ok ([], ts)

/-- Items as long as the next token starts one. Each has a token of its own, so that the tokens
themselves are a bound. -/
def many (start? : Token → Option (Parser α)) : Parser (List α) := fun ts =>
  manyUpTo start? ts ts

/-- What stands after an item of a list: a comma, or the closing token, which is left. -/
def separator (closing : Token) : Parser Unit
  | [] => .error ⟨.separator closing, []⟩
  | t :: ts =>
    if t = .symbol .comma then .ok ((), ts)
    else if t = closing then .ok ((), t :: ts)
    else .error ⟨.separator closing, t :: ts⟩

/-- Items with commas between them, perhaps one after the last, up to and with the closing token. -/
def listUntil (closing : Token) (start? : Token → Option (Parser α)) : Parser (List α) := do
  let items ← many fun t => (start? t).map fun item => do
    let a ← item
    separator closing
    pure a
  expect closing
  pure items

def startName? : Token → Option (Parser Name)
  | .identifier x => some (pure x)
  | _ => none

end Parser

end ModuleScript
