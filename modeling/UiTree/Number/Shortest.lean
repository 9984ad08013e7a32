import UiTree.Number.Binary64

/-!
# Shortest decimal digits

The decimal with the fewest digits among those that round to a given binary64 number, and of
several such decimals the one nearest to it. The search walks over the number of digits and asks
of the two neighbours on each decimal grid whether they lie in the interval of reals that round
to the number.

## Implementation notes

All comparisons are between products of natural numbers, so they are exact.
-/

namespace UiTree.Number

/-- The number `digits * 10 ^ exponent`. -/
structure Decimal where
  digits : Nat
  exponent : Int
deriving DecidableEq, Repr, Inhabited

/-- Compare `a * 10 ^ i` with `n * 2 ^ j`. -/
def compareScaled (a : Nat) (i : Int) (n : Nat) (j : Int) : Ordering :=
  compare ((a * Nat.pow 10 i.toNat) <<< (-j).toNat) ((n * Nat.pow 10 (-i).toNat) <<< j.toNat)

namespace Dyadic

/-- Whether the gap below the number is half the gap above it. -/
def narrowBelow (x : Dyadic) : Bool :=
  x.significand == 0x10000000000000 && x.exponent != -1074

/-- Whether reading the decimal gives the number back: it lies between the midpoints to the two
neighbours, the midpoints included when the significand is even. -/
def readsBack (x : Dyadic) (d : Decimal) : Bool :=
  let low := if x.narrowBelow then 4 * x.significand - 1 else 4 * x.significand - 2
  let high := 4 * x.significand + 2
  let closed := x.significand % 2 == 0
  let toLow := compareScaled d.digits d.exponent low (x.exponent - 2)
  let toHigh := compareScaled d.digits d.exponent high (x.exponent - 2)
  (toLow == .gt || (closed && toLow == .eq)) && (toHigh == .lt || (closed && toHigh == .eq))

/-- The number of decimal digits of a positive natural number. -/
def digitCount (n : Nat) : Nat :=
  (Nat.toDigits 10 n).length

/-- The least `k` with the magnitude below `10 ^ k`, for a number other than zero. -/
def scale (x : Dyadic) : Int :=
  let floor := x.numerator / x.denominator
  if 0 < floor then digitCount floor
  else 1 - digitCount ((x.denominator - 1) / x.numerator)

/-- The magnitude in units of `10 ^ e`, rounded down. -/
def inUnits (x : Dyadic) (e : Int) : Nat :=
  (x.numerator * Nat.pow 10 (-e).toNat) / (x.denominator * Nat.pow 10 e.toNat)

/-- The nearer of two neighbours on a grid; of two equally near ones, the greater. -/
def nearer (x : Dyadic) (below : Nat) (e : Int) : Decimal :=
  if compareScaled (2 * below + 1) e (2 * x.significand) x.exponent == .gt then ⟨below, e⟩
  else ⟨below + 1, e⟩

/-- The best decimal with `n` digits that reads back, if there is one. -/
def withDigits? (x : Dyadic) (n : Nat) : Option Decimal :=
  let e := x.scale - n
  let below := x.inUnits e
  match x.readsBack ⟨below, e⟩, x.readsBack ⟨below + 1, e⟩ with
  | true, true => some (x.nearer below e)
  | true, false => some ⟨below, e⟩
  | false, true => some ⟨below + 1, e⟩
  | false, false => none

/-- The magnitude itself as a decimal. -/
def exactDecimal (x : Dyadic) : Decimal :=
  if 0 ≤ x.exponent then ⟨x.numerator, 0⟩
  else ⟨x.significand * Nat.pow 5 (-x.exponent).toNat, x.exponent⟩

/-- The shortest decimal that reads back as the number's magnitude. Seventeen digits always
suffice. -/
def shortest (x : Dyadic) : Decimal :=
  if x.significand = 0 then ⟨0, 0⟩
  else ((List.range' 1 17).findSome? x.withDigits?).getD x.exactDecimal

end Dyadic

end UiTree.Number
