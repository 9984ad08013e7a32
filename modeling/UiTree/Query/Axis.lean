import UiTree.Ascending
import UiTree.Document.Basic
import UiTree.Query.Expr

/-!
# Nodes and axes

The nodes that a query runs over are a root above the root element, the elements, and the
attributes of each element. An axis lists the nodes in one direction from a node, nearest first.
Document order puts the root first, then each element followed by its attributes.
-/

namespace UiTree.Query

/-- A node of a document. -/
inductive DocNode where
  /-- The root above the root element. -/
  | root
  | element (i : Nat)
  /-- The attribute of an element at a place in its list. -/
  | attributeAt (i k : Nat)
deriving DecidableEq, Repr, Inhabited

namespace DocNode

/-- Nodes are ordered by this pair. -/
def key : DocNode → Nat × Nat
  | root => (0, 0)
  | element i => (i + 1, 0)
  | attributeAt i k => (i + 1, k + 1)

/-- Whether a node stands before another one in document order. -/
def before (a b : DocNode) : Bool :=
  a.key.1 < b.key.1 || (a.key.1 == b.key.1 && a.key.2 < b.key.2)

/-- The element that a node is or belongs to. -/
def owner? : DocNode → Option Nat
  | root => none
  | element i => some i
  | attributeAt i _ => some i

theorem key_injective {a b : DocNode} (h : a.key = b.key) : a = b := by
  cases a <;> cases b <;> simp_all [key]

/-- Two nodes that stand before each other in neither way are the same. -/
theorem separates_before : Ascending.Separates before := by
  intro a b hab hba
  apply key_injective
  simp only [before, Bool.or_eq_false_iff, decide_eq_false_iff_not, Bool.and_eq_false_iff,
    beq_eq_false_iff_ne] at hab hba
  apply Prod.ext <;> omega

/-- The nodes of a list in document order, each once. -/
def inOrder (nodes : List DocNode) : List DocNode :=
  Ascending.ofList before nodes

@[simp] theorem mem_inOrder {m : DocNode} {nodes : List DocNode} :
    m ∈ inOrder nodes ↔ m ∈ nodes :=
  Ascending.mem_ofList separates_before

end DocNode

end UiTree.Query

namespace UiTree.Document

open Query (Axis DocNode)

/-- The parent of an element as a node. -/
def parentNode (d : Document) (i : Nat) : DocNode :=
  match d.parentOf? i with
  | some p => .element p
  | none => .root

/-- The ancestors of an element as nodes, nearest first; the last is the root. -/
def ancestorNodes (d : Document) (i : Nat) : List DocNode :=
  (d.ancestorsOf i).map .element ++ [.root]

/-- The nodes along an axis. -/
def along (d : Document) : Axis → DocNode → List DocNode
  | .self, n => [n]
  | .child, .root => if d.size = 0 then [] else [.element 0]
  | .child, .element i => (d.childrenOf i).map .element
  | .descendant, .root => (List.range d.size).map .element
  | .descendant, .element i => (d.descendantsOf i).map .element
  | .descendantOrSelf, .root => .root :: (List.range d.size).map .element
  | .descendantOrSelf, .element i => .element i :: (d.descendantsOf i).map .element
  | .parent, .element i => [d.parentNode i]
  | .parent, .attributeAt i _ => [.element i]
  | .ancestor, .element i => d.ancestorNodes i
  | .ancestor, .attributeAt i _ => .element i :: d.ancestorNodes i
  | .ancestorOrSelf, .root => [.root]
  | .ancestorOrSelf, .element i => .element i :: d.ancestorNodes i
  | .ancestorOrSelf, .attributeAt i k => .attributeAt i k :: .element i :: d.ancestorNodes i
  | .followingSibling, .element i =>
    (((d.siblingsOf i).dropWhile (· != i)).drop 1).map .element
  | .precedingSibling, .element i =>
    (((d.siblingsOf i).takeWhile (· != i)).map .element).reverse
  | .attributes, .element i => (List.range (d.attributesOf i).length).map (.attributeAt i)
  | _, _ => []

/-- The attribute that a node is. -/
def attributeAt? (d : Document) : DocNode → Option (DocumentAttribute × String)
  | .attributeAt i k => (d.attributesOf i)[k]?
  | _ => none

/-- Whether a node on an axis passes a test. -/
def passes (d : Document) (axis : Axis) : Query.NodeTest → DocNode → Bool
  | .anyNode, _ => true
  | .anyName, .attributeAt _ _ => axis = .attributes
  | .anyName, .element _ => axis ≠ .attributes
  | .element (some type), .element i => (d.element? i).any (·.type = type)
  | .named a, .attributeAt i k => (d.attributeAt? (.attributeAt i k)).any (·.1 = a)
  | _, _ => false

/-- The text of a node. Only attributes carry text. -/
def textOf (d : Document) (n : DocNode) : String :=
  ((d.attributeAt? n).map (·.2)).getD ""

end UiTree.Document
