import UiTree.Snapshot.Basic

/-!
# Finding a node again

A node without identity is looked for in a new snapshot by its type and place, and by its frame or
its texts. The first candidate in document order wins.
-/

namespace UiTree

namespace SnapshotNode

/-- The same type, depth and place among the siblings. -/
def samePlace (old candidate : SnapshotNode) : Bool :=
  old.properties.type == candidate.properties.type && old.depth == candidate.depth &&
    old.index == candidate.index

/-- Both frames are known and agree within a margin. -/
def sameFrame (old candidate : SnapshotNode) (margin : Float) : Bool :=
  match old.properties.frame, candidate.properties.frame with
  | some a, some b => a.agrees b margin
  | _, _ => false

/-- Whether a label, a name or a value is known. -/
def hasText (n : SnapshotNode) : Bool :=
  n.properties.label.isSome || n.properties.name.isSome || n.properties.value.isSome

/-- Some text is known of the old node, and label, name and value are all the same. -/
def sameText (old candidate : SnapshotNode) : Bool :=
  old.hasText && old.properties.label == candidate.properties.label &&
    old.properties.name == candidate.properties.name &&
    old.properties.value == candidate.properties.value

/-- Whether a candidate may be the old node. -/
def mayBe (old candidate : SnapshotNode) (margin : Float) : Bool :=
  old.samePlace candidate && (old.sameFrame candidate margin || old.sameText candidate)

end SnapshotNode

/-- The position of the first node that may be the old one. -/
def SnapshotRef.relocate? (old : SnapshotRef) (s : Snapshot) (margin : Float) : Option Nat :=
  s.nodes.findIdx? (old.node.mayBe · margin)

end UiTree
