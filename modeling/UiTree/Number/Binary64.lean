/-!
# Exact values of floating-point numbers

A finite binary64 number is an integer times a power of two. Rounding and printing work on that
exact value with integer arithmetic, so no step of theirs loses digits.
-/

namespace UiTree.Number

/-- The number `significand * 2 ^ exponent`, negated when `negative`. -/
structure Dyadic where
  negative : Bool
  significand : Nat
  exponent : Int
deriving DecidableEq, Repr, Inhabited

/-- What a binary64 bit pattern stands for. -/
inductive Reading where
  | nan
  | infinite (negative : Bool)
  | finite (value : Dyadic)
deriving DecidableEq, Repr, Inhabited

/-- Split a bit pattern into sign, exponent and significand. -/
def Reading.ofBits (bits : UInt64) : Reading :=
  let negative := bits >>> 63 == 1
  let exponent := ((bits >>> 52) &&& 0x7FF).toNat
  let fraction := (bits &&& 0xFFFFFFFFFFFFF).toNat
  if exponent = 0x7FF then
    if fraction = 0 then .infinite negative else .nan
  else if exponent = 0 then .finite ⟨negative, fraction, -1074⟩
  else .finite ⟨negative, 0x10000000000000 + fraction, exponent - 1075⟩

/-- The exact value of a floating-point number. -/
def reading (x : Float) : Reading :=
  Reading.ofBits x.toBits

namespace Dyadic

/-- Numerator of the magnitude as a fraction of two natural numbers. -/
def numerator (d : Dyadic) : Nat :=
  d.significand <<< d.exponent.toNat

/-- Denominator of the magnitude as a fraction of two natural numbers. -/
def denominator (d : Dyadic) : Nat :=
  1 <<< (-d.exponent).toNat

theorem denominator_pos (d : Dyadic) : 0 < d.denominator := by
  rw [denominator, Nat.one_shiftLeft]
  exact Nat.two_pow_pos _

/-- The nearest integer; a half goes away from zero. -/
def round (d : Dyadic) : Int :=
  let magnitude := (2 * d.numerator + d.denominator) / (2 * d.denominator)
  if d.negative then -magnitude else magnitude

end Dyadic

/-- Least value of a signed 64-bit integer. -/
def minInt64 : Int := -0x8000000000000000

/-- Greatest value of a signed 64-bit integer. -/
def maxInt64 : Int := 0x7FFFFFFFFFFFFFFF

/-- The nearest 64-bit integer, a half going away from zero; numbers outside the range go to its
ends and what is not finite goes to zero. -/
def roundToInt64 (x : Float) : Int :=
  match reading x with
  | .finite d => max minInt64 (min maxInt64 d.round)
  | _ => 0

theorem roundToInt64_mem (x : Float) :
    minInt64 ≤ roundToInt64 x ∧ roundToInt64 x ≤ maxInt64 := by
  unfold roundToInt64
  split <;> simp only [minInt64, maxInt64] <;> omega

/-- Whether the number is neither infinite nor NaN. -/
def isFinite (x : Float) : Bool :=
  match reading x with
  | .finite _ => true
  | _ => false

end UiTree.Number
