import ModuleScript.Number.Decimal

/-!
The shortest decimal of a positive double: the one with the fewest digits that reads back as the
double, and of several such decimals the nearest one. What reads back is an interval, and if it has
a multiple of `10 ^ s`, then one next to the double, so the search tries those on finer grids.
-/

namespace ModuleScript

/-- The positive double `mantissa · 2 ^ exponent`. -/
structure Binary where
  mantissa : Nat
  exponent : Int
deriving DecidableEq, Repr

def leadingBit : Nat := 4503599627370496

namespace Binary

/--
Distance to the lower end of the interval in quarters of `2 ^ exponent`. Below a power of two the
doubles are twice as dense, except among the least ones.
-/
def lowerGap (x : Binary) : Nat :=
  if x.mantissa = leadingBit ∧ x.exponent ≠ -1074 then 1 else 2

/--
Numerator and denominator of a quarter of `2 ^ exponent` on the grid of multiples of `10 ^ s`.
-/
def quarter (x : Binary) (s : Int) : Nat × Nat :=
  (Nat.pow 2 (x.exponent - 2).toNat * Nat.pow 10 (-s).toNat,
    Nat.pow 2 (2 - x.exponent).toNat * Nat.pow 10 s.toNat)

def readsBack (x : Binary) (s : Int) (c : Nat) : Bool :=
  let (num, den) := x.quarter s
  let low := (4 * x.mantissa - x.lowerGap) * num
  let high := (4 * x.mantissa + 2) * num
  if x.mantissa % 2 = 0 then low ≤ c * den && c * den ≤ high
  else low < c * den && c * den < high

/-- The nearer of the two multiples of `10 ^ s` next to `x` that read back; half way goes up. -/
def onGrid? (x : Binary) (s : Int) : Option Decimal :=
  let (num, den) := x.quarter s
  let below := 4 * x.mantissa * num / den
  let remainder := 4 * x.mantissa * num % den
  match x.readsBack s below, x.readsBack s (below + 1) with
  | true, true => some ⟨if 2 * remainder < den then below else below + 1, s⟩
  | true, false => some ⟨below, s⟩
  | false, true => some ⟨below + 1, s⟩
  | false, false => none

/-- The first grid from `10 ^ s` downwards that has a decimal for `x`, of at most `n` more grids. -/
def search (x : Binary) : Nat → Int → Decimal
  | 0, s => ⟨4 * x.mantissa * (x.quarter s).1 / (x.quarter s).2, s⟩
  | n + 1, s => (x.onGrid? s).getD (x.search n (s - 1))

/--
The search starts on a grid wider than `x`, at most two places above its first digit. Seventeen
digits always read back, so twenty grids are enough.
-/
def shortest (x : Binary) : Decimal :=
  x.search 20 ((x.mantissa.log2 + x.exponent + 1) * 30103 / 100000 + 1)

end Binary

end ModuleScript
