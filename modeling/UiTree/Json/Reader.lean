import UiTree.Json.Numeral
import UiTree.Number.Hex

/-!
# Reading JSON text

`parse` accepts exactly one value with white space around it. Each reader takes the characters
that are left and returns what it read together with what it left over. An escape may name half a
character; a string with such an escape has no text, and neither it nor an object that uses it as
a name can be read any further, but both can be passed over.

## Implementation notes

Values nest, so the readers of values, items and members call each other. They take a number of
levels that they may still descend; the length of the text is always enough, since every level
takes at least one character.
-/

namespace UiTree.Json.Reader

/-- White space between the parts of a value. -/
def isSpace (c : Char) : Bool :=
  c == ' ' || c == '\n' || c == '\t' || c == '\r'

def skipSpace (cs : List Char) : List Char :=
  cs.dropWhile isSpace

/-- Take off a fixed word. -/
def word? (w cs : List Char) : Option (List Char) :=
  if w.isPrefixOf cs then some (cs.drop w.length) else none

/-- Take off a digit string, which may be empty. -/
def digits (cs : List Char) : List Char × List Char :=
  cs.span Char.isDigit

/-- Take off a digit string with at least one digit. -/
def digits? (cs : List Char) : Option (List Char × List Char) :=
  match digits cs with
  | ([], _) => none
  | found => some found

/-- The part of a numeral before the point: a single zero, or digits that do not begin with
zero. -/
def whole? (cs : List Char) : Option (List Char × List Char) :=
  match digits? cs with
  | some ('0' :: _ :: _, _) => none
  | found => found

/-- The part of a numeral after the point, empty when there is no point. -/
def fraction? : List Char → Option (List Char × List Char)
  | '.' :: rest => digits? rest
  | cs => some ([], cs)

/-- The sign of an exponent; `true` for a minus. -/
def exponentSign : List Char → Bool × List Char
  | '-' :: rest => (true, rest)
  | '+' :: rest => (false, rest)
  | cs => (false, cs)

/-- The exponent of a numeral, if there is one. -/
def exponent? : List Char → Option (Option (Bool × List Char) × List Char)
  | c :: rest =>
    if c == 'e' || c == 'E' then do
      let (lowers, rest) := exponentSign rest
      let (found, rest) ← digits? rest
      some (some (lowers, found), rest)
    else some (none, c :: rest)
  | [] => some (none, [])

/-- Take off a numeral. -/
def numeral? (cs : List Char) : Option (Numeral × List Char) := do
  let (negative, cs) := match cs with
    | '-' :: rest => (true, rest)
    | _ => (false, cs)
  let (whole, cs) ← whole? cs
  let (fraction, cs) ← fraction? cs
  let (exponent, cs) ← exponent? cs
  some (⟨negative, whole, fraction, exponent⟩, cs)

/-- The code unit that four hexadecimal digits spell. -/
def codeUnit? : List Char → Option (Nat × List Char)
  | a :: b :: c :: d :: rest => do
    let a ← Number.hexDigit? a
    let b ← Number.hexDigit? b
    let c ← Number.hexDigit? c
    let d ← Number.hexDigit? d
    some (((a * 16 + b) * 16 + c) * 16 + d, rest)
  | _ => none

/-- The escape of the second half of a character. -/
def lowHalf? : List Char → Option (Nat × List Char)
  | '\\' :: 'u' :: rest => do
    let (unit, rest) ← codeUnit? rest
    if 0xDC00 ≤ unit && unit < 0xE000 then some (unit, rest) else none
  | _ => none

/-- The character that the digits after the letter `u` of an escape name, together with the escape
of its second half if there is one. Half a character is no character. -/
def unicodeEscape? (cs : List Char) : Option (Option Char × List Char) := do
  let (unit, rest) ← codeUnit? cs
  if 0xD800 ≤ unit && unit < 0xDC00 then
    match lowHalf? rest with
    | some (low, rest) =>
      some (some (Char.ofNat (0x10000 + (unit - 0xD800) * 0x400 + (low - 0xDC00))), rest)
    | none => some (none, rest)
  else if 0xDC00 ≤ unit && unit < 0xE000 then some (none, rest)
  else some (some (Char.ofNat unit), rest)

/-- The character that a single letter after a backslash stands for. -/
def shortEscape? : Char → Option Char
  | '"' => some '"'
  | '\\' => some '\\'
  | '/' => some '/'
  | 'b' => some '\x08'
  | 'f' => some '\x0c'
  | 'n' => some '\n'
  | 'r' => some '\r'
  | 't' => some '\t'
  | _ => none

/-- One character of a string as written. -/
def stringChar? : List Char → Option (Option Char × List Char)
  | '\\' :: 'u' :: rest => unicodeEscape? rest
  | '\\' :: c :: rest => (shortEscape? c).map fun c => (some c, rest)
  | c :: rest => if c == '\\' || c == '"' || c.toNat < 32 then none else some (some c, rest)
  | [] => none

/-- The characters of a string up to its closing quote. -/
def stringBody? : Nat → List Char → Option (Option (List Char) × List Char)
  | _, '"' :: rest => some (some [], rest)
  | 0, _ => none
  | fuel + 1, cs => do
    let (c, rest) ← stringChar? cs
    let (body, rest) ← stringBody? fuel rest
    some (c.bind fun c => body.map (c :: ·), rest)

/-- Take off a string. -/
def string? : List Char → Option (Option String × List Char)
  | '"' :: rest => do
    let (body, rest) ← stringBody? rest.length rest
    some (body.map String.ofList, rest)
  | _ => none

mutual

/-- Take off one value; white space before it is skipped. -/
def value? : Nat → List Char → Option (Value × List Char)
  | 0, _ => none
  | fuel + 1, cs =>
    match skipSpace cs with
    | '{' :: rest =>
      match skipSpace rest with
      | '}' :: rest => some (.object [], rest)
      | rest => do
        let (members, rest) ← members? fuel rest
        some (members.elim .unreadable .object, rest)
    | '[' :: rest =>
      match skipSpace rest with
      | ']' :: rest => some (.array [], rest)
      | rest => do
        let (items, rest) ← items? fuel rest
        some (.array items, rest)
    | '"' :: rest => do
      let (s, rest) ← string? ('"' :: rest)
      some (s.elim .unreadable .string, rest)
    | 't' :: rest => (word? "rue".toList rest).map (.bool true, ·)
    | 'f' :: rest => (word? "alse".toList rest).map (.bool false, ·)
    | 'n' :: rest => (word? "ull".toList rest).map (.null, ·)
    | cs => do
      let (n, rest) ← numeral? cs
      some (.number n.toNumber, rest)

/-- The items of an array up to its closing bracket. -/
def items? : Nat → List Char → Option (List Value × List Char)
  | 0, _ => none
  | fuel + 1, cs => do
    let (item, rest) ← value? fuel cs
    match skipSpace rest with
    | ']' :: rest => some ([item], rest)
    | ',' :: rest =>
      let (items, rest) ← items? fuel rest
      some (item :: items, rest)
    | _ => none

/-- The members of an object up to its closing brace. -/
def members? : Nat → List Char → Option (Option (List (String × Value)) × List Char)
  | 0, _ => none
  | fuel + 1, cs => do
    let (name, rest) ← string? (skipSpace cs)
    match skipSpace rest with
    | ':' :: rest =>
      let (value, rest) ← value? fuel rest
      match skipSpace rest with
      | '}' :: rest => some (name.map fun name => [(name, value)], rest)
      | ',' :: rest =>
        let (members, rest) ← members? fuel rest
        some (name.bind fun name => members.map ((name, value) :: ·), rest)
      | _ => none
    | _ => none

end

end UiTree.Json.Reader

namespace UiTree.Json

/-- The value that a text holds, if it is the text of one value. -/
def parse (text : String) : Option Value :=
  let cs := text.toList
  match Reader.value? (cs.length + 1) cs with
  | some (value, rest) => if (Reader.skipSpace rest).isEmpty then some value else none
  | none => none

end UiTree.Json
