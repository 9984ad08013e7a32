import UiTree.Snapshot.Basic

/-!
# Documents

A document is a snapshot as queries and page source see it: elements in document order with their
types and the texts of their attributes. It does not refer to the nodes it was made of; the node
index that is made together with it does.

## Implementation notes

A document and its index carry the serial number of their making, so that an index is not taken
for the index of another document.
-/

namespace UiTree

/-- An element of a document. Parent and children are given by position. -/
structure Element where
  type : ElementType
  /-- The attributes that are present, in order. -/
  attributes : List (DocumentAttribute × String)
  parent : Option Nat
  children : List Nat
deriving Repr, Inhabited

namespace Element

/-- The name of the element. -/
def name (e : Element) : String := e.type.documentName

/-- The text of an attribute, if it is present. -/
def attribute? (e : Element) (a : DocumentAttribute) : Option String :=
  e.attributes.lookup a

end Element

/-- Elements in document order; the first is the root. -/
structure Document where
  elements : Array Element
  serial : Nat
deriving Inhabited

/-- The positions of the snapshot nodes that the elements of a document were made of. -/
structure NodeIndex where
  positions : Array Nat
  serial : Nat
deriving Inhabited

/-- The element made of a snapshot node. The place among the siblings is always present, every
other attribute if it was captured. -/
def SnapshotNode.element (n : SnapshotNode) : Element where
  type := n.properties.type.getD default
  attributes := DocumentAttribute.all.filterMap fun a => (n.text? a).map (a, ·)
  parent := n.parent
  children := n.children.getD []

/-- An element lists its attributes in the order of all of them, each at most once. -/
theorem SnapshotNode.element_attributes_sublist (n : SnapshotNode) :
    (n.element.attributes.map Prod.fst).Sublist DocumentAttribute.all := by
  have hfst : n.element.attributes.map Prod.fst =
      DocumentAttribute.all.filter fun a => (n.text? a).isSome := by
    rw [element, List.map_filterMap, ← List.filterMap_eq_filter]
    congr 1
    funext a
    cases h : n.text? a <;> simp [Option.guard, h]
  exact hfst ▸ List.filter_sublist

/-- The document made of a snapshot, with its index. -/
def Snapshot.document (s : Snapshot) (serial : Nat) : Document × NodeIndex :=
  (⟨s.nodes.map SnapshotNode.element, serial⟩, ⟨Array.range s.size, serial⟩)

namespace Document

/-- The number of elements. -/
def size (d : Document) : Nat := d.elements.size

/-- The element at a position. -/
def element? (d : Document) (i : Nat) : Option Element := d.elements[i]?

/-- The root element. -/
def root? (d : Document) : Option Element := d.element? 0

/-- The positions of the children of an element. -/
def childrenOf (d : Document) (i : Nat) : List Nat :=
  ((d.element? i).map (·.children)).getD []

/-- The position of the parent of an element. -/
def parentOf? (d : Document) (i : Nat) : Option Nat :=
  (d.element? i).bind (·.parent)

/-- The attributes of an element. -/
def attributesOf (d : Document) (i : Nat) : List (DocumentAttribute × String) :=
  ((d.element? i).map (·.attributes)).getD []

/-- The elements that come off a stack in some steps. Each step takes the top one off and puts its
children on in its place, the first of them on top. -/
def walk (d : Document) : Nat → List Nat → List Nat
  | 0, _ => []
  | _ + 1, [] => []
  | steps + 1, i :: stack => i :: d.walk steps (d.childrenOf i ++ stack)

/-- The descendants of an element in document order: a walk from its children on. No element has
more descendants than there are elements. -/
def descendantsOf (d : Document) (i : Nat) : List Nat := d.walk d.size (d.childrenOf i)

/-- At most `levels` ancestors of an element, nearest first. -/
def ancestorsWithin (d : Document) : Nat → Nat → List Nat
  | 0, _ => []
  | levels + 1, i =>
    match d.parentOf? i with
    | some p => p :: d.ancestorsWithin levels p
    | none => []

/-- The ancestors of an element, nearest first. -/
def ancestorsOf (d : Document) (i : Nat) : List Nat := d.ancestorsWithin d.size i

/-- The children of an element's parent, or the element alone if it has no parent. -/
def siblingsOf (d : Document) (i : Nat) : List Nat :=
  match d.parentOf? i with
  | some p => d.childrenOf p
  | none => [i]

end Document

namespace NodeIndex

/-- The number of elements that have been recorded. -/
def size (x : NodeIndex) : Nat := x.positions.size

/-- The position of the node that an element was made of. -/
def node? (x : NodeIndex) (i : Nat) : Option Nat := x.positions[i]?

/-- Whether the index was made together with the document. -/
def belongsTo (x : NodeIndex) (d : Document) : Bool :=
  x.serial == d.serial && x.size == d.size

end NodeIndex

theorem Snapshot.belongsTo_document (s : Snapshot) (serial : Nat) :
    (s.document serial).2.belongsTo (s.document serial).1 = true := by
  simp [document, NodeIndex.belongsTo, NodeIndex.size, Document.size, Snapshot.size]

end UiTree
