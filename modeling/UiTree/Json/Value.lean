/-!
# JSON values

A number keeps which kind of numeral it came from, because a count is read from a natural number
only, while a measure is read from any of them. Members of an object keep their order and may
repeat a name; what a repetition means is for the reader of the value to say.
-/

namespace UiTree.Json

/-- A JSON number. -/
inductive Number where
  /-- A numeral without sign, point and exponent, below `2 ^ 64`. -/
  | natural (n : UInt64)
  /-- A negative integer, at least `-2 ^ 63`. -/
  | negative (n : Int64)
  /-- Any other numeral, rounded. -/
  | float (x : Float)
  /-- A numeral beyond the greatest floating-point number. -/
  | outOfRange

/-- A JSON value. -/
inductive Value where
  | null
  | bool (b : Bool)
  | number (n : Number)
  | string (s : String)
  | array (items : List Value)
  | object (members : List (String × Value))
  /-- A value with an escape that names half a character. It can be passed over, but not read. -/
  | unreadable
deriving Inhabited

namespace Number

/-- A count is written as a natural number. -/
def toCount? : Number → Option UInt64
  | natural n => some n
  | _ => none

/-- A measure is written as any number within range. -/
def toMeasure? : Number → Option Float
  | natural n => some n.toFloat
  | negative n => some n.toFloat
  | float x => some x
  | outOfRange => none

end Number

namespace Value

/-- The count that a value holds. -/
def toCount? : Value → Option UInt64
  | number n => n.toCount?
  | _ => none

/-- The measure that a value holds. -/
def toMeasure? : Value → Option Float
  | number n => n.toMeasure?
  | _ => none

/-- A count as a value. -/
def ofCount (n : UInt64) : Value :=
  number (.natural n)

@[simp] theorem toCount?_ofCount (n : UInt64) : (ofCount n).toCount? = some n := rfl

end Value

end UiTree.Json
