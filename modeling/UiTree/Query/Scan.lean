import UiTree.Query.Value
import UiTree.Text.Cut

/-!
# Tokens by byte positions

The tokens of a query, read by a walk over its characters with their byte positions. Where the walk
has to look further than at the next character, and where it keeps the characters of a token, it
cuts the query at a position.

## Implementation notes

The walk and the cuts go by positions of their own, so each token says how many characters of the
walk it takes. Digits that were cut out are read as a decimal, which is refused if it is none.
-/

namespace UiTree.Query

open Text (Scan indexed findByte?)

/-- Reads by byte positions, and stops at a position for a reason. -/
abbrev TokenScan := Scan (Nat × SyntaxFault)

/-- Whether a character ends a name: no name goes on with it, or it is the first of two points. -/
def endsName (query : String) (i : Nat) (c : Char) : TokenScan Bool :=
  if !isNameChar c then pure true
  else if c == '.' then do
    let rest ← Scan.cutFrom query i
    pure (Text.startsWith rest "..")
  else pure false

/-- The position after the characters that continue a name, which ended at `stop` so far, and the
number of these characters. -/
def scanName (query : String) (stop : Nat) : List (Nat × Char) → TokenScan (Nat × Nat)
  | [] => pure (stop, 0)
  | (i, c) :: walk => do
    if ← endsName query i c then pure (stop, 0)
    else
      let (stop, taken) ← scanName query (i + c.utf8Size) walk
      pure (stop, taken + 1)

/-- Whether a character continues a number: a digit, or the first point unless another one
follows. -/
def continuesNumber (query : String) (pointed : Bool) (i : Nat) (c : Char) : TokenScan Bool :=
  if c.isDigit then pure true
  else if c == '.' && !pointed then do
    let rest ← Scan.cutFrom query i
    pure (!Text.startsWith rest "..")
  else pure false

/-- The position after the characters that continue a number, which ended at `stop` so far, and the
number of these characters. -/
def scanNumber (query : String) : Bool → Nat → List (Nat × Char) → TokenScan (Nat × Nat)
  | _, stop, [] => pure (stop, 0)
  | pointed, stop, (i, c) :: walk => do
    if ← continuesNumber query pointed i c then
      let (stop, taken) ← scanNumber query (pointed || c == '.') (i + 1) walk
      pure (stop, taken + 1)
    else pure (stop, 0)

/-- A number and how many characters it takes. -/
def scanNumeral (query : String) : List (Nat × Char) → TokenScan (Token × Nat)
  | [] => .fail (query.utf8ByteSize, .missingNumber)
  | (start, c) :: walk => do
    let (stop, taken) ← scanNumber query false start ((start, c) :: walk)
    let digits ← Scan.cut query start stop
    match decimalParts? digits.toList with
    | some (whole, fraction) => pure (.number (Number.ofDigits whole fraction), taken)
    | none => .fail (start, .malformedNumber)

/-- A literal and how many characters it takes with its quotes. -/
def scanLiteral (query : String) (offset : Nat) (quote : Char) : TokenScan (Token × Nat) := do
  let body ← Scan.cutFrom query (offset + 1)
  match findByte? (· == quote) body.toList with
  | some length => do
    let literal ← Scan.cutTo body length
    pure (.literal literal, literal.length + 2)
  | none => .fail (offset, .unterminatedLiteral)

/-- A name and how many characters it takes. -/
def scanNamed (query : String) (offset : Nat) (walk : List (Nat × Char)) :
    TokenScan (Token × Nat) := do
  let (stop, taken) ← scanName query offset walk
  let name ← Scan.cut query offset stop
  pure (.name name, taken)

/-- Whether a digit comes after the point that a text begins with. -/
def pointsNumber (rest : String) (c : Char) : TokenScan Bool :=
  if c == '.' then do
    let after ← Scan.cutFrom rest 1
    pure (after.toList.head?.any Char.isDigit)
  else pure false

/-- The token that begins with the character `c` at an offset, where the walk stands, and how many
characters of the walk it takes. -/
def scanToken (query : String) (offset : Nat) (c : Char) (walk : List (Nat × Char)) :
    TokenScan (Token × Nat) := do
  let rest ← Scan.cutFrom query offset
  match symbolOf? Symbol.long rest.toList with
  | some s => pure (.symbol s, s.text.length)
  | none => do
    if ← pointsNumber rest c then scanNumeral query walk
    else if c.isDigit then scanNumeral query walk
    else if c == '\'' || c == '"' then scanLiteral query offset c
    else if isNameStart c then scanNamed query offset walk
    else match symbolOf? Symbol.short [c] with
      | some s => pure (.symbol s, 1)
      | none => .fail (offset, .unexpectedCharacter c)

/-- The tokens of what is left of the walk, after passing over as many characters as belong to a
token already read. -/
def scanTokens (query : String) : Nat → List (Nat × Char) → TokenScan (List Located)
  | _, [] => pure []
  | passing + 1, _ :: walk => scanTokens query passing walk
  | 0, (offset, c) :: walk =>
    if Text.isBlank c then scanTokens query 0 walk
    else do
      let (t, taken) ← scanToken query offset c ((offset, c) :: walk)
      let more ← scanTokens query (taken - 1) walk
      pure (⟨t, offset⟩ :: more)

/-- The tokens of a query. -/
def scan (query : String) : TokenScan (List Located) :=
  scanTokens query 0 (indexed 0 query.toList)

end UiTree.Query
