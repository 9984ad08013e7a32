import UiTree.Query.Fault
import UiTree.Text.Search

/-!
# From text to tokens

Tokens are read one after the other, and white space between them is skipped. Each token keeps the
byte offset at which it begins.

## Implementation notes

`tokens` walks over the characters one by one. A token that was recognised says how many further
characters it takes, and the walk passes over these without looking at them again.
-/

namespace UiTree.Query

/-- A name starts with a letter or an underscore. -/
def isNameStart (c : Char) : Bool :=
  Text.isAlphabetic c || c == '_'

/-- A name goes on with letters, digits, underscores, hyphens and points. -/
def isNameChar (c : Char) : Bool :=
  Text.isAlphanumeric c || c == '_' || c == '-' || c == '.'

/-- Whether a point comes first. -/
def beginsWithDot : List Char → Bool
  | '.' :: _ => true
  | _ => false

/-- The longest beginning that continues a name. Two points in a row end a name. -/
def nameRest : List Char → List Char
  | [] => []
  | c :: rest =>
    if isNameChar c && !(c == '.' && beginsWithDot rest) then c :: nameRest rest else []

/-- The longest beginning of digits. -/
def leadingDigits (cs : List Char) : List Char :=
  cs.takeWhile Char.isDigit

/-- The digits of a number: those before its point, and those after it if a point follows that is
not the first of two. -/
def numberParts (cs : List Char) : List Char × Option (List Char) :=
  let whole := leadingDigits cs
  match cs.drop whole.length with
  | '.' :: rest => if beginsWithDot rest then (whole, none) else (whole, some (leadingDigits rest))
  | _ => (whole, none)

/-- The number of characters of a number. -/
def numberLength : List Char × Option (List Char) → Nat
  | (whole, none) => whole.length
  | (whole, some fraction) => whole.length + 1 + fraction.length

/-- The value of a number. -/
def numberValue (parts : List Char × Option (List Char)) : Float :=
  Number.ofDigits parts.1 (parts.2.getD [])

/-- Whether a number begins here: a digit, or a point and a digit. -/
def startsNumber (c : Char) (rest : List Char) : Bool :=
  c.isDigit || (c == '.' && (rest.head?.any Char.isDigit))

/-- The symbol whose spelling comes first, of the given ones. -/
def symbolOf? (symbols : List Symbol) (cs : List Char) : Option Symbol :=
  symbols.find? (·.text.toList.isPrefixOf cs)

/-- The token that begins with the character `c`, and how many characters it takes after `c`. -/
def token (c : Char) (rest : List Char) : Except SyntaxFault (Token × Nat) :=
  match symbolOf? Symbol.long (c :: rest) with
  | some s => .ok (.symbol s, 1)
  | none =>
    if startsNumber c rest then
      let parts := numberParts (c :: rest)
      .ok (.number (numberValue parts), numberLength parts - 1)
    else if c == '\'' || c == '"' then
      let body := rest.takeWhile (· != c)
      if body.length < rest.length then .ok (.literal (String.ofList body), body.length + 1)
      else .error .unterminatedLiteral
    else if isNameStart c then
      let more := nameRest rest
      .ok (.name (String.ofList (c :: more)), more.length)
    else match symbolOf? Symbol.short [c] with
      | some s => .ok (.symbol s, 0)
      | none => .error (.unexpectedCharacter c)

/-- The tokens of a text that begins at a byte offset, after passing over as many characters as
belong to a token already read. A fault comes with its offset. -/
def tokens : Nat → Nat → List Char → Except (Nat × SyntaxFault) (List Located)
  | _, _, [] => .ok []
  | passing + 1, offset, c :: rest => tokens passing (offset + c.utf8Size) rest
  | 0, offset, c :: rest =>
    if Text.isBlank c then tokens 0 (offset + c.utf8Size) rest
    else match token c rest with
      | .error fault => .error (offset, fault)
      | .ok (t, taken) => do
        let more ← tokens taken (offset + c.utf8Size) rest
        .ok (⟨t, offset⟩ :: more)

/-- The tokens of a query. -/
def tokenize (text : String) : Except (Nat × SyntaxFault) (List Located) :=
  tokens 0 0 text.toList

/-- Passing over characters only moves the offset. -/
theorem tokens_passing (n offset : Nat) (cs : List Char) :
    tokens n offset cs =
      tokens 0 (offset + Text.byteLength (cs.take n)) (cs.drop n) := by
  induction n generalizing offset cs with
  | zero => simp
  | succ n ih =>
      cases cs with
      | nil => simp [tokens]
      | cons c rest => rw [tokens, ih]; simp [Nat.add_assoc]

end UiTree.Query
