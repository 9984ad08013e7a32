import UiTree.Predicate.Basic
import UiTree.Error

/-!
# Reading predicates

Conditions are joined by `AND` or `&&` into clauses, and clauses by `OR` or `||`. Words are read
in either case and must not run into a letter or a digit. A value stands in single or double
quotes, where a backslash takes the next character as it is.

## Implementation notes

A cursor holds the characters that are left and the byte offset of the first of them.
-/

namespace UiTree

open Query (Refusal SyntaxFault)

/-- What is left of a text, and where it begins. -/
structure Cursor where
  offset : Nat
  rest : List Char

namespace Cursor

/-- The beginning of a text. -/
def ofText (s : String) : Cursor := ⟨0, s.toList⟩

/-- Pass over some characters. -/
def advance (c : Cursor) (n : Nat) : Cursor :=
  ⟨c.offset + Text.byteLength (c.rest.take n), c.rest.drop n⟩

/-- Pass over white space. -/
def skipBlank (c : Cursor) : Cursor :=
  c.advance (c.rest.takeWhile Text.isBlank).length

/-- Refuse the text here. -/
def refuse {α : Type} (c : Cursor) (fault : SyntaxFault) : Except Refusal α :=
  .error (.malformed c.offset fault)

/-- Whether a word comes next, in either case, and no letter or digit follows it. -/
def beginsWithWord (c : Cursor) (word : String) : Bool :=
  let head := c.rest.take word.length
  head.map Char.toLower == word.toList.map Char.toLower &&
    !((c.rest.drop word.length).head?.any Text.isAlphanumeric)

/-- Pass over the first of some words that comes next. -/
def eatWord? (c : Cursor) (words : List String) : Option Cursor :=
  (words.find? c.beginsWithWord).map fun word => c.advance word.length

end Cursor

namespace Predicate

/-- A letter, a digit or an underscore may stand in the name of an attribute. -/
def isKeyChar (c : Char) : Bool :=
  Text.isAlphanumeric c || c == '_'

/-- The name of an attribute. -/
def readSubject (c : Cursor) : Except Refusal (Attribute × Cursor) :=
  let key := c.rest.takeWhile isKeyChar
  if key.isEmpty then c.refuse .expectedAttribute
  else
    match Attribute.ofName? (String.ofList key) with
    | some a => .ok (a, c.advance key.length)
    | none => .error (.unknownAttribute (String.ofList key))

/-- The spellings of the operators, in the order in which they are tried. -/
def spellings : List (String × MatchOp) :=
  [("==", .equals), ("=", .equals), ("!=", .differs), ("BEGINSWITH", .beginsWith),
    ("ENDSWITH", .endsWith), ("CONTAINS", .contains)]

/-- An operator. -/
def readOperator (c : Cursor) : Except Refusal (MatchOp × Cursor) :=
  match spellings.find? (c.beginsWithWord ·.1) with
  | some (word, op) => .ok (op, c.advance word.length)
  | none => c.refuse .expectedOperator

/-- The characters of a value up to its closing quote, and how many characters they take together
with that quote. -/
def quotedBody? (quote : Char) : List Char → Option (List Char × Nat)
  | [] => none
  | c :: rest =>
    if c == '\\' then
      match rest with
      | [] => none
      | escaped :: rest => (quotedBody? quote rest).map fun (body, n) => (escaped :: body, n + 2)
    else if c == quote then some ([], 1)
    else (quotedBody? quote rest).map fun (body, n) => (c :: body, n + 1)

/-- A value in quotes. -/
def readQuoted (c : Cursor) : Except Refusal (String × Cursor) :=
  match c.rest with
  | quote :: rest =>
    if quote == '\'' || quote == '"' then
      match quotedBody? quote rest with
      | some (body, n) => .ok (String.ofList body, c.advance (n + 1))
      | none => c.refuse .unterminatedValue
    else c.refuse .expectedValue
  | [] => c.refuse .expectedValue

/-- The value as it is compared: the name of a type stands for the name of its elements. -/
def normalValue (subject : Attribute) (value : String) : String :=
  if subject = .type then ((ElementType.ofName? value).map ElementType.documentName).getD value
  else value

/-- A condition, with white space before each of its parts. -/
def readCondition (c : Cursor) : Except Refusal (Condition × Cursor) := do
  let (subject, c) ← readSubject c.skipBlank
  let (op, c) ← readOperator c.skipBlank
  let (value, c) ← readQuoted c.skipBlank
  .ok (⟨subject, op, normalValue subject value⟩, c)

/-- The clause that goes on here, and the clauses after it. At most `limit` conditions are read;
a text has more characters than conditions. -/
def readClauses : Nat → Cursor → Except Refusal (List Condition × List (List Condition))
  | 0, c => c.refuse .expectedAttribute
  | limit + 1, c => do
    let (condition, c) ← readCondition c
    let c := c.skipBlank
    if c.rest.isEmpty then .ok ([condition], [])
    else
      match c.eatWord? ["AND", "&&"] with
      | some c => do
        let (clause, others) ← readClauses limit c
        .ok (condition :: clause, others)
      | none =>
        match c.eatWord? ["OR", "||"] with
        | some c => do
          let (clause, others) ← readClauses limit c
          .ok ([condition], clause :: others)
        | none => c.refuse .expectedConnective

/-- The predicate that a text spells. -/
def parse (s : String) : Outcome Predicate :=
  match readClauses (s.toList.length + 1) (Cursor.ofText s) with
  | .ok (clause, others) => .ok ⟨clause :: others⟩
  | .error refusal => .error (refusal.toError s)

end Predicate

end UiTree
