/-!
# Hexadecimal digits

Digits are written in upper case and read in either case.
-/

namespace UiTree.Number

/-- The digit of a number below sixteen. -/
def hexChar (n : Nat) : Char :=
  if n < 10 then Char.ofNat ('0'.toNat + n) else Char.ofNat ('A'.toNat + (n - 10))

/-- The value of a digit. -/
def hexDigit? (c : Char) : Option Nat :=
  if '0' ≤ c && c ≤ '9' then some (c.toNat - '0'.toNat)
  else if 'a' ≤ c && c ≤ 'f' then some (c.toNat - 'a'.toNat + 10)
  else if 'A' ≤ c && c ≤ 'F' then some (c.toNat - 'A'.toNat + 10)
  else none

/-- The last `width` digits of a number, leading zeros included. -/
def hexText : Nat → Nat → List Char
  | 0, _ => []
  | width + 1, n => hexText width (n / 16) ++ [hexChar (n % 16)]

@[simp] theorem length_hexText (width n : Nat) : (hexText width n).length = width := by
  induction width generalizing n with
  | zero => rfl
  | succ width ih => simp [hexText, ih]

/-- The value of a digit string, read from the left after what has been read already. -/
def hexValue? : Nat → List Char → Option Nat
  | n, [] => some n
  | n, c :: rest => do hexValue? (16 * n + (← hexDigit? c)) rest

theorem hexValue?_append (n : Nat) (xs ys : List Char) :
    hexValue? n (xs ++ ys) = (hexValue? n xs).bind (hexValue? · ys) := by
  induction xs generalizing n with
  | nil => rfl
  | cons c xs ih =>
      cases h : hexDigit? c with
      | none => simp [hexValue?, h]
      | some d => simp [hexValue?, h, ih]

theorem hexDigit?_hexChar : ∀ {n : Nat}, n < 16 → hexDigit? (hexChar n) = some n := by
  decide

end UiTree.Number
