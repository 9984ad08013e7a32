import UiTree.Number.Shortest

/-!
# Positional number text

Floating-point numbers are written with the digits of their shortest decimal, without an exponent
and without a fraction of zero. Numbers in a query are read from a digit string with at most one
point.
-/

namespace UiTree.Number

/-- How a format spells the values that have no digits of their own. -/
structure Spelling where
  nan : String
  infinity : String
  /-- Whether the sign of a negative zero is written. -/
  signedZero : Bool

namespace Decimal

/-- The digits without an exponent: zeros are appended, or a point is set, possibly after
leading zeros. -/
def positional (d : Decimal) : List Char :=
  let digits := Nat.toDigits 10 d.digits
  if 0 ≤ d.exponent then digits ++ List.replicate d.exponent.toNat '0'
  else
    let places := (-d.exponent).toNat
    let padded := List.replicate (places + 1 - digits.length) '0' ++ digits
    let whole := padded.take (padded.length - places)
    let fraction := (padded.drop (padded.length - places)).reverse.dropWhile (· == '0')
    if fraction.isEmpty then whole else whole ++ '.' :: fraction.reverse

end Decimal

/-- The sign as text. -/
def signText (negative : Bool) : String :=
  if negative then "-" else ""

/-- The text of a floating-point number. -/
def text (spelling : Spelling) (x : Float) : String :=
  match reading x with
  | .nan => spelling.nan
  | .infinite negative => signText negative ++ spelling.infinity
  | .finite d =>
    let signed := d.negative && (spelling.signedZero || d.significand != 0)
    signText signed ++ String.ofList d.shortest.positional

/-- The value of a digit string, read from the left. -/
def digitsValue (digits : List Char) : Nat :=
  digits.foldl (fun n c => 10 * n + (c.toNat - '0'.toNat)) 0

/-- The floating-point number nearest to the decimal `whole.fraction`. -/
def ofDigits (whole fraction : List Char) : Float :=
  Float.ofScientific (digitsValue (whole ++ fraction)) true fraction.length

end UiTree.Number
