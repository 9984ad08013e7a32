import UiTree.Provider.RawNode
import UiTree.Traits

/-!
# Snapshots

A snapshot is what was captured of a tree at one time: its nodes in document order, each knowing
its parent, its children, its depth and its place among its siblings by position. Position zero is
the root.
-/

namespace UiTree

/-- A captured node. -/
structure SnapshotNode where
  ref : NodeRef
  properties : Properties
  /-- The positions of the children, unless they were omitted. -/
  children : Option (List Nat)
  /-- The position of the parent; the root has none. -/
  parent : Option Nat
  /-- The number of ancestors. -/
  depth : Nat
  /-- The place among the siblings. -/
  index : Nat
deriving Repr, Inhabited

namespace SnapshotNode

/-- The text of a truth value. -/
def truthText (b : Bool) : String :=
  if b then "true" else "false"

/-- The text of an attribute of the document, or `none` if it was not captured. -/
def text? (n : SnapshotNode) : DocumentAttribute → Option String
  | .type => n.properties.type.map ElementType.documentName
  | .value => n.properties.value
  | .name => n.properties.name
  | .label => n.properties.label
  | .enabled => n.properties.enabled.map truthText
  | .visible => n.properties.visible.map truthText
  | .selected => n.properties.selected.map truthText
  | .accessible => n.properties.accessible.map truthText
  | .container => n.properties.container.map truthText
  | .focused => n.properties.focused.map truthText
  | .x => n.properties.frame.map fun f => toString f.whole.x
  | .y => n.properties.frame.map fun f => toString f.whole.y
  | .width => n.properties.frame.map fun f => toString f.whole.width
  | .height => n.properties.frame.map fun f => toString f.whole.height
  | .index => some (toString n.index)
  | .traits => n.properties.traits.map Traits.text

end SnapshotNode

/-- A captured tree. Times are in nanoseconds. -/
structure Snapshot where
  nodes : Array SnapshotNode
  nodes_pos : 0 < nodes.size
  /-- The attributes that were asked for. -/
  attributes : AttributeSet
  /-- The levels below the root that were asked for. -/
  maxDepth : Nat
  capturedAt : Nat

namespace Snapshot

/-- The number of captured nodes. -/
def size (s : Snapshot) : Nat := s.nodes.size

/-- The target of the capture. -/
def root (s : Snapshot) : SnapshotNode := s.nodes[(⟨0, s.nodes_pos⟩ : Fin s.nodes.size)]

/-- The node at a position. -/
def node? (s : Snapshot) (i : Nat) : Option SnapshotNode := s.nodes[i]?

/-- The position of the parent of the node at a position. -/
def parent? (s : Snapshot) (i : Nat) : Option Nat := (s.node? i).bind (·.parent)

/-- At most `levels` ancestors of a position, nearest first. -/
def ancestorsWithin (s : Snapshot) : Nat → Nat → List Nat
  | 0, _ => []
  | levels + 1, i =>
    match s.parent? i with
    | some p => p :: s.ancestorsWithin levels p
    | none => []

/-- The ancestors of a position, nearest first. No node has more ancestors than there are
nodes. -/
def ancestors (s : Snapshot) (i : Nat) : List Nat := s.ancestorsWithin s.size i

/-- The position of the first node with a reference. -/
def find? (s : Snapshot) (r : NodeRef) : Option Nat :=
  s.nodes.findIdx? (·.ref == r)

/-- The positions of the nodes for which a test holds, in document order. -/
def positions (s : Snapshot) (p : SnapshotNode → Bool) : List Nat :=
  s.nodes.toList.zipIdx.filterMap fun (n, i) => if p n then some i else none

/-- How long ago the snapshot was taken. -/
def age (s : Snapshot) (now : Nat) : Nat := now - s.capturedAt

end Snapshot

/-- A node of a snapshot. -/
structure SnapshotRef where
  tree : Snapshot
  position : Nat
  position_lt : position < tree.size

namespace SnapshotRef

/-- The node at a position, if there is one. -/
def of? (s : Snapshot) (i : Nat) : Option SnapshotRef :=
  if h : i < s.size then some ⟨s, i, h⟩ else none

/-- The root of a snapshot. -/
def ofRoot (s : Snapshot) : SnapshotRef := ⟨s, 0, s.nodes_pos⟩

/-- The node itself. -/
def node (r : SnapshotRef) : SnapshotNode :=
  r.tree.nodes[(⟨r.position, r.position_lt⟩ : Fin r.tree.nodes.size)]

@[simp] theorem node_ofRoot (s : Snapshot) : (ofRoot s).node = s.root := rfl

end SnapshotRef

end UiTree
