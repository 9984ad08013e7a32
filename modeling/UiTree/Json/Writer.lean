import UiTree.Json.Value
import UiTree.Number.Positional

/-!
# Writing JSON text

Values are written without white space. Quotes, backslashes and control characters of a string are
escaped, every other character stands for itself.
-/

namespace UiTree.Json

/-- The escape of a character that has a letter of its own. -/
def escapeLetter? : Char → Option Char
  | '"' => some '"'
  | '\\' => some '\\'
  | '\x08' => some 'b'
  | '\x0c' => some 'f'
  | '\n' => some 'n'
  | '\r' => some 'r'
  | '\t' => some 't'
  | _ => none

/-- A character as it stands in a string. -/
def escapeChar (c : Char) : List Char :=
  match escapeLetter? c with
  | some letter => ['\\', letter]
  | none =>
    if c.toNat < 32 then
      ['\\', 'u', '0', '0', Nat.digitChar (c.toNat / 16), Nat.digitChar (c.toNat % 16)]
    else [c]

/-- A string with its quotes. -/
def quote (s : String) : String :=
  String.ofList ('"' :: (s.toList.flatMap escapeChar ++ ['"']))

/-- The text of a floating-point number keeps a point, so that it is not taken for a count. -/
def floatText (x : Float) : String :=
  if Number.isFinite x then
    let digits := Number.text ⟨"null", "null", true⟩ x
    if digits.contains '.' then digits else digits ++ ".0"
  else "null"

/-- The text of a number. -/
def Number.render : Number → String
  | natural n => toString n.toNat
  | negative n => toString n.toInt
  | float x => floatText x
  | outOfRange => "null"

mutual

/-- The text of a value. -/
def Value.render : Value → String
  | .null | .unreadable => "null"
  | .bool b => if b then "true" else "false"
  | .number n => n.render
  | .string s => quote s
  | .array items => "[" ++ String.intercalate "," (renderItems items) ++ "]"
  | .object members => "\x7b" ++ String.intercalate "," (renderMembers members) ++ "\x7d"

/-- The texts of the items of an array. -/
def renderItems : List Value → List String
  | [] => []
  | item :: items => item.render :: renderItems items

/-- The texts of the members of an object. -/
def renderMembers : List (String × Value) → List String
  | [] => []
  | (name, value) :: members => (quote name ++ ":" ++ value.render) :: renderMembers members

end

end UiTree.Json
