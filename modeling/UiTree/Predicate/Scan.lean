import UiTree.Predicate.Reader
import UiTree.Text.Cut

/-!
# Predicates by byte positions

A predicate, read by a scanner whose only state is a byte position. Each step cuts the text at the
position to see what comes next, and adds the bytes of what it has read.

## Implementation notes

Whether a word comes next is seen from a split of what is left behind as many bytes as the word has.
That the split would go through a character is an answer, not a fault: the word does not come next.
-/

namespace UiTree.Predicate

open Query (Refusal SyntaxFault)
open Text (Scan indexed findByte? splitBytes?)

/-- Reads by byte positions. -/
abbrev Scanning := Scan Refusal

/-- Pass over white space. -/
def scanBlank (text : String) (pos : Nat) : Scanning Nat := do
  let rest ← Scan.cutFrom text pos
  pure (pos + (rest.utf8ByteSize - Text.byteLength (Text.trimStart rest.toList)))

/-- Whether a word comes first, in either case, and no letter or digit follows it. -/
def headsWith (rest : List Char) (word : String) : Bool :=
  match splitBytes? word.utf8ByteSize rest with
  | some (head, tail) =>
    head.map Char.toLower == word.toList.map Char.toLower &&
      !(tail.head?.any Text.isAlphanumeric)
  | none => false

/-- The position after the first of some words that comes next. -/
def scanWord (text : String) (pos : Nat) (words : List String) : Scanning (Option Nat) := do
  let rest ← Scan.cutFrom text pos
  pure ((words.find? (headsWith rest.toList)).map (pos + ·.utf8ByteSize))

/-- The name of an attribute. -/
def scanSubject (text : String) (pos : Nat) : Scanning (Attribute × Nat) := do
  let rest ← Scan.cutFrom text pos
  let length := (findByte? (!isKeyChar ·) rest.toList).getD rest.utf8ByteSize
  let key ← Scan.cutTo rest length
  if key.isEmpty then .fail (.malformed pos .expectedAttribute)
  else
    match Attribute.ofName? key with
    | some a => pure (a, pos + length)
    | none => .fail (.unknownAttribute key)

/-- An operator, one of those that have not been tried. -/
def scanOperator (text : String) (pos : Nat) :
    List (String × MatchOp) → Scanning (MatchOp × Nat)
  | [] => .fail (.malformed pos .expectedOperator)
  | (word, op) :: others => do
    match ← scanWord text pos [word] with
    | some pos => pure (op, pos)
    | none => scanOperator text pos others

/-- The characters of a value behind those that were read, and the position after its closing
quote. `escaped` says that the next character is taken as it is. -/
def scanBody (quote : Char) : Bool → List Char → List (Nat × Char) → Option (List Char × Nat)
  | _, _, [] => none
  | true, value, (_, c) :: walk => scanBody quote false (value ++ [c]) walk
  | false, value, (i, c) :: walk =>
    if c == '\\' then scanBody quote true value walk
    else if c == quote then some (value, i + c.utf8Size)
    else scanBody quote false (value ++ [c]) walk

/-- A value in quotes. -/
def scanQuoted (text : String) (pos : Nat) : Scanning (String × Nat) := do
  let rest ← Scan.cutFrom text pos
  match indexed 0 rest.toList with
  | [] => .fail (.malformed pos .expectedValue)
  | (_, quote) :: walk =>
    if quote == '\'' || quote == '"' then
      match scanBody quote false [] walk with
      | some (value, stop) => pure (String.ofList value, pos + stop)
      | none => .fail (.malformed pos .unterminatedValue)
    else .fail (.malformed pos .expectedValue)

/-- A condition, with white space before each of its parts. -/
def scanCondition (text : String) (pos : Nat) : Scanning (Condition × Nat) := do
  let pos ← scanBlank text pos
  let (subject, pos) ← scanSubject text pos
  let pos ← scanBlank text pos
  let (op, pos) ← scanOperator text pos spellings
  let pos ← scanBlank text pos
  let (value, pos) ← scanQuoted text pos
  pure (⟨subject, op, normalValue subject value⟩, pos)

/-- The clause that goes on here, and the clauses after it, of at most `limit` conditions. -/
def scanClauses (text : String) :
    Nat → Nat → Scanning (List Condition × List (List Condition))
  | 0, pos => .fail (.malformed pos .expectedAttribute)
  | limit + 1, pos => do
    let (condition, pos) ← scanCondition text pos
    let pos ← scanBlank text pos
    let rest ← Scan.cutFrom text pos
    if rest.isEmpty then pure ([condition], [])
    else
      match ← scanWord text pos ["AND", "&&"] with
      | some pos => do
        let (clause, others) ← scanClauses text limit pos
        pure (condition :: clause, others)
      | none =>
        match ← scanWord text pos ["OR", "||"] with
        | some pos => do
          let (clause, others) ← scanClauses text limit pos
          pure ([condition], clause :: others)
        | none => .fail (.malformed pos .expectedConnective)

/-- The clauses of a predicate. A text has more characters than conditions. -/
def scan (text : String) : Scanning (List Condition × List (List Condition)) :=
  scanClauses text (text.toList.length + 1) 0

end UiTree.Predicate
