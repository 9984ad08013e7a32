import UiTree.Text.Search

/-!
# Cutting texts at byte positions

A reader that keeps its place as a byte position cuts the text there to see what comes next, and
cuts out what it wants to keep. A cut is sound if it goes forwards and no character lies across
either end. Anything else that is cut out counts as the empty text, so that an unsound cut shows in
nothing but what the reader makes of it.

## Implementation notes

A scan is what such a reader does. It notes every cut, and no reader can look at the notes.
-/

namespace UiTree.Text

/-- The characters before a byte position and those after it, if no character lies across it. -/
def splitBytes? : Nat → List Char → Option (List Char × List Char)
  | 0, cs => some ([], cs)
  | _ + 1, [] => none
  | n + 1, c :: cs =>
    if c.utf8Size ≤ n + 1 then
      (splitBytes? (n + 1 - c.utf8Size) cs).map fun (before, after) => (c :: before, after)
    else none

/-- Characters with the byte positions at which they begin. -/
def indexed : Nat → List Char → List (Nat × Char)
  | _, [] => []
  | i, c :: cs => (i, c) :: indexed (i + c.utf8Size) cs

/-- The byte position of the first character for which a test holds. -/
def findByte? (p : Char → Bool) : List Char → Option Nat
  | [] => none
  | c :: cs => if p c then some 0 else (findByte? p cs).map (c.utf8Size + ·)

/-- A byte position is between two characters of a text, or at an end of it. -/
abbrev Boundary (text : String) (pos : Nat) : Prop :=
  (⟨pos⟩ : String.Pos.Raw).IsValid text

/-- A text and two byte positions in it. -/
structure Cut where
  text : String
  start : Nat
  stop : Nat

namespace Cut

/-- The positions are in order, and no character lies across either of them. -/
structure Sound (c : Cut) : Prop where
  le : c.start ≤ c.stop
  start_boundary : Boundary c.text c.start
  stop_boundary : Boundary c.text c.stop

/-- What stands between the positions, unless they are out of order or inside a character. -/
def piece? (c : Cut) : Option String :=
  if c.start ≤ c.stop then do
    let (_, rest) ← splitBytes? c.start c.text.toList
    let (piece, _) ← splitBytes? (c.stop - c.start) rest
    some (String.ofList piece)
  else none

end Cut

/-- What a reader makes of a text, or why it stops, and the cuts that it has made. -/
structure Scan (ε α : Type) where
  outcome : Except ε α
  cuts : List Cut

namespace Scan

variable {ε α : Type}

instance : Monad (Scan ε) where
  pure a := ⟨.ok a, []⟩
  bind x f :=
    match x.outcome with
    | .ok a => ⟨(f a).outcome, x.cuts ++ (f a).cuts⟩
    | .error e => ⟨.error e, x.cuts⟩

/-- Stop. -/
def fail (e : ε) : Scan ε α := ⟨.error e, []⟩

/-- Cut a text. What is not there is the empty text. -/
@[irreducible]
def cut (text : String) (start stop : Nat) : Scan ε String :=
  ⟨.ok ((Cut.mk text start stop).piece?.getD ""), [⟨text, start, stop⟩]⟩

/-- The text from a position on. -/
def cutFrom (text : String) (start : Nat) : Scan ε String :=
  cut text start text.utf8ByteSize

/-- The text up to a position. -/
def cutTo (text : String) (stop : Nat) : Scan ε String :=
  cut text 0 stop

end Scan

end UiTree.Text
