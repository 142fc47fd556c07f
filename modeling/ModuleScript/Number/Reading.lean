import ModuleScript.Number.Decimal
import ModuleScript.Text.Blank

/-!
Numbers written by people: an optional sign, then `inf`, `infinity` or `nan` in any letter case, or
decimal digits with at most one point before, between or after them and an optional exponent.
-/

namespace ModuleScript

/-- A sign and what follows it; no sign counts as plus. The flag tells a minus. -/
def splitSign : List Char → Bool × List Char
  | '+' :: cs => (false, cs)
  | '-' :: cs => (true, cs)
  | cs => (false, cs)

def splitDigits (cs : List Char) : List Char × List Char :=
  (cs.takeWhile isDigit, cs.dropWhile isDigit)

def splitFraction : List Char → List Char × List Char
  | '.' :: cs => splitDigits cs
  | cs => ([], cs)

/-- The exponent that makes up the whole text. The empty text is the exponent zero. -/
def readExponent? : List Char → Option Int
  | [] => some 0
  | c :: cs =>
    let (negative, digits) := splitSign cs
    if (c = 'e' ∨ c = 'E') ∧ digits ≠ [] ∧ digits.all isDigit then
      some (if negative then -(digitsValue digits : Int) else digitsValue digits)
    else none

def readDecimal? (cs : List Char) : Option Decimal :=
  let (whole, rest) := splitDigits cs
  let (fraction, rest) := splitFraction rest
  if whole = [] ∧ fraction = [] then none
  else (readExponent? rest).map (Decimal.ofDigits whole fraction)

def readUnsigned? (cs : List Char) : Option Float :=
  let word := cs.map Char.toLower
  if word = "inf".toList ∨ word = "infinity".toList then some Decimal.infinity
  else if word = "nan".toList then some Decimal.notANumber
  else (readDecimal? cs).map Decimal.toNumber

def readNumber? (cs : List Char) : Option Float :=
  let (negative, rest) := splitSign cs
  (readUnsigned? rest).map fun x => if negative then -x else x

end ModuleScript
