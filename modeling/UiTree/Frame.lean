import UiTree.Number.Binary64

/-!
# Frames

The rectangle of an element on the screen. Frames are compared within a margin on every
component, and written as whole numbers.
-/

namespace UiTree

/-- A rectangle in screen points. -/
structure Frame where
  x : Float
  y : Float
  width : Float
  height : Float
deriving Repr, Inhabited

namespace Frame

/-- Whether two numbers differ by at most the margin. Two infinities of one sign differ by no
number, hence not by at most the margin. -/
def near (a b margin : Float) : Bool :=
  (a - b).abs ≤ margin

/-- Whether two frames agree within a margin on every component. -/
def agrees (a b : Frame) (margin : Float) : Bool :=
  near a.x b.x margin && near a.y b.y margin && near a.width b.width margin &&
    near a.height b.height margin

/-- Equality of every component as numbers, so that a component that is not a number differs from
itself. -/
def same (a b : Frame) : Bool :=
  a.x == b.x && a.y == b.y && a.width == b.width && a.height == b.height

/-- A frame in whole points. -/
structure Whole where
  x : Int
  y : Int
  width : Int
  height : Int
deriving DecidableEq, Repr

/-- The frame as it is shown: rounded, and zero where it is not finite. -/
def whole (f : Frame) : Whole :=
  ⟨Number.roundToInt64 f.x, Number.roundToInt64 f.y, Number.roundToInt64 f.width,
    Number.roundToInt64 f.height⟩

/-- The text of a frame: its origin, then its size. -/
def Whole.text (w : Whole) : String :=
  "\x7b\x7b" ++ toString w.x ++ ", " ++ toString w.y ++ "\x7d, \x7b" ++ toString w.width ++ ", " ++
    toString w.height ++ "\x7d\x7d"

end Frame

end UiTree
