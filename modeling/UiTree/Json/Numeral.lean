import UiTree.Json.Value
import UiTree.Number.Positional

/-!
# JSON numerals

A numeral without point and exponent is an integer as long as it fits 64 bits. Every other
numeral is a floating-point number: as many leading digits as fit an unsigned 64-bit integer are
taken as its significand, which is then multiplied or divided once by a power of ten.
-/

namespace UiTree.Json

/-- The parts of a numeral as written. `fraction` is empty when there is no point, and `exponent`
holds the sign and the digits that follow the letter. -/
structure Numeral where
  negative : Bool
  whole : List Char
  fraction : List Char
  exponent : Option (Bool × List Char)

/-- Append digits to a significand until the next one would leave 64 bits. The second component
counts the digits taken. -/
def absorb : Nat → List Char → Nat × Nat
  | significand, [] => (significand, 0)
  | significand, c :: rest =>
    let next := 10 * significand + (c.toNat - '0'.toNat)
    if next < UInt64.size then
      let (s, taken) := absorb next rest
      (s, taken + 1)
    else (significand, 0)

/-- The floating-point number nearest to `10 ^ k`. -/
def powerOfTen (k : Nat) : Float :=
  Float.ofScientific 1 false k

/-- Divide by `10 ^ k`, in steps that stay within the powers a floating-point number can hold. -/
def divideByPower (x : Float) (k : Nat) : Float :=
  if k ≤ 308 then x / powerOfTen k
  else if x == 0 then x
  else divideByPower (x / powerOfTen 308) (k - 308)
termination_by k

/-- A significand times a power of ten; `none` when it is beyond the finite numbers. -/
def scaled? (significand : Nat) (exponent : Int) : Option Float :=
  let x := Float.ofNat significand
  if 0 ≤ exponent then
    if exponent ≤ 308 then
      let y := x * powerOfTen exponent.toNat
      if Number.isFinite y then some y else none
    else if significand = 0 then some x else none
  else some (divideByPower x (-exponent).toNat)

namespace Numeral

/-- Exponents above this bound are not scaled: they are zero or out of range. -/
def greatestExponent : Nat := 0x7FFFFFFF

/-- The magnitude as a floating-point number. -/
def magnitude? (n : Numeral) : Option Float :=
  let (significand, taken) := absorb 0 n.whole
  let (significand, places) := absorb significand n.fraction
  let start : Int := (n.whole.length - taken : Nat) - places
  match n.exponent with
  | none => scaled? significand start
  | some (lowers, digits) =>
    let e := Number.digitsValue digits
    if greatestExponent < e then
      if significand != 0 && !lowers then none else some 0
    else scaled? significand (if lowers then start - e else start + e)

/-- The number with the numeral's sign and magnitude. -/
def toFloat (n : Numeral) : Number :=
  match n.magnitude? with
  | none => .outOfRange
  | some x => .float (if n.negative then -x else x)

/-- The number a numeral stands for. -/
def toNumber (n : Numeral) : Number :=
  if n.fraction.isEmpty && n.exponent.isNone then
    let value := Number.digitsValue n.whole
    if n.negative then
      if 0 < value && value ≤ 0x8000000000000000 then .negative (Int64.ofInt (-value))
      else n.toFloat
    else if value < UInt64.size then .natural (UInt64.ofNat value)
    else n.toFloat
  else n.toFloat

end Numeral

end UiTree.Json
