import ModuleScript.Number.Shortest

/-!
The text of a number. Numbers are written in positional notation with their shortest digits, never
with an exponent, and whole numbers without a point. Zero keeps its sign and not-a-number has none.
-/

namespace ModuleScript

/-- Digits of a decimal with a point where its exponent asks for one. -/
def Decimal.text (x : Decimal) : String :=
  let digits := Nat.toDigits 10 x.mantissa
  match x.exponent with
  | .ofNat e => String.ofList (digits ++ List.replicate e '0')
  | .negSucc e =>
    let places := e + 1
    let padded := List.replicate (places + 1 - digits.length) '0' ++ digits
    let whole := padded.length - places
    String.ofList (padded.take whole ++ '.' :: padded.drop whole)

/-- What the bits of a double stand for, its sign apart. -/
inductive Magnitude where
  | zero
  | finite (x : Binary)
  | infinite
  | notANumber

def Magnitude.ofBits (bits : Nat) : Magnitude :=
  let fraction := bits % leadingBit
  let exponent := bits / leadingBit % 2048
  if exponent = 2047 then
    if fraction = 0 then .infinite else .notANumber
  else if exponent = 0 then
    if fraction = 0 then .zero else .finite ⟨fraction, -1074⟩
  else .finite ⟨leadingBit + fraction, (exponent : Int) - 1075⟩

def numberText (x : Float) : String :=
  let bits := x.toBits.toNat
  let sign := if bits / leadingBit < 2048 then "" else "-"
  match Magnitude.ofBits bits with
  | .zero => sign ++ "0"
  | .finite b => sign ++ b.shortest.text
  | .infinite => sign ++ "inf"
  | .notANumber => "NaN"

end ModuleScript
