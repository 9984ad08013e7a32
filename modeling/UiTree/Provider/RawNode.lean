import UiTree.Identity
import UiTree.Frame
import UiTree.ElementType
import UiTree.Attribute

/-!
# Nodes as a provider reports them

A node carries its reference, the values of those attributes that were reported, and its children.
Children that were omitted are told apart from having no children.
-/

namespace UiTree

/-- The reported values of a node. What was not reported is `none`. -/
structure Properties where
  type : Option ElementType := none
  frame : Option Frame := none
  label : Option String := none
  name : Option String := none
  value : Option String := none
  enabled : Option Bool := none
  visible : Option Bool := none
  selected : Option Bool := none
  accessible : Option Bool := none
  /-- Whether some descendant is accessible. -/
  container : Option Bool := none
  focused : Option Bool := none
  traits : Option UInt64 := none
deriving Repr, Inhabited

/-- Keep the values of the attributes in a set. -/
def Properties.restrict (p : Properties) (s : AttributeSet) : Properties where
  type := if s.has .type then p.type else none
  frame := if s.has .frame then p.frame else none
  label := if s.has .label then p.label else none
  name := if s.has .name then p.name else none
  value := if s.has .value then p.value else none
  enabled := if s.has .enabled then p.enabled else none
  visible := if s.has .visible then p.visible else none
  selected := if s.has .selected then p.selected else none
  accessible := if s.has .accessible then p.accessible else none
  container := if s.has .container then p.container else none
  focused := if s.has .focused then p.focused else none
  traits := if s.has .traits then p.traits else none

/-- A node and its descendants as reported. -/
inductive RawNode where
  | mk (ref : NodeRef) (properties : Properties) (children : Option (List RawNode))
deriving Inhabited

namespace RawNode

/-- The reference of the node. -/
def ref : RawNode → NodeRef
  | mk r _ _ => r

/-- The values reported of the node itself. -/
def properties : RawNode → Properties
  | mk _ p _ => p

/-- The children, unless they were omitted. -/
def children : RawNode → Option (List RawNode)
  | mk _ _ cs => cs

end RawNode

end UiTree
