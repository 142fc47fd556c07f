/-!
Decimals and the numbers they denote. A decimal is a natural number times a power of ten; its number
is the nearest double. Powers of ten so large or so small that the answer no longer depends on the
digits are decided first, so that reading takes time in proportion to the digits written.
-/

namespace ModuleScript

def isDigit (c : Char) : Bool := '0' ≤ c && c ≤ '9'

def digitsValue (cs : List Char) : Nat :=
  cs.foldl (fun n c => 10 * n + (c.toNat - '0'.toNat)) 0

/-- The rational number `mantissa · 10 ^ exponent`. -/
structure Decimal where
  mantissa : Nat
  exponent : Int
deriving DecidableEq, Repr

namespace Decimal

def ofDigits (whole fraction : List Char) (shift : Int) : Decimal where
  mantissa := digitsValue (whole ++ fraction)
  exponent := shift - fraction.length

def infinity : Float := 1.0 / 0.0

def notANumber : Float := 0.0 / 0.0

/--
The double nearest to a decimal. With `d` digits the decimal lies between `10 ^ (d - 1 + exponent)`
and `10 ^ (d + exponent)`: from `10 ^ 309` on the nearest double is infinity, below `10 ^ (-324)` it
is zero.
-/
def toNumber (x : Decimal) : Float :=
  let d : Int := (Nat.toDigits 10 x.mantissa).length
  if x.mantissa = 0 ∨ d + x.exponent ≤ -324 then 0.0
  else if 310 ≤ d + x.exponent then infinity
  else match x.exponent with
    | .ofNat e => Float.ofScientific x.mantissa false e
    | .negSucc e => Float.ofScientific x.mantissa true (e + 1)

end Decimal

end ModuleScript
