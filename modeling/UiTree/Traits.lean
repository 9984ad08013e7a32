/-!
# Traits of an element

Providers report traits as a bit mask. The seventeen lowest bits have names, the others are
ignored.
-/

namespace UiTree.Traits

/-- The names of the bits, lowest first. -/
def names : List String :=
  ["Button", "Link", "Image", "Selected", "PlaysSound", "KeyboardKey", "StaticText",
    "SummaryElement", "NotEnabled", "UpdatesFrequently", "SearchField", "StartsMediaSession",
    "Adjustable", "AllowsDirectInteraction", "CausesPageTurn", "TabBar", "Header"]

/-- The names of the bits that are set, lowest first. -/
def named (mask : UInt64) : List String :=
  names.zipIdx.filterMap fun (name, bit) => if mask.toNat.testBit bit then some name else none

/-- The names of the bits that are set, as one text. -/
def text (mask : UInt64) : String :=
  ", ".intercalate (named mask)

end UiTree.Traits
