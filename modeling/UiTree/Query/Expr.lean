import UiTree.Attribute
import UiTree.ElementType

/-!
# Path expressions

The syntax trees of queries: location paths with their steps, unions of paths, comparisons, logical
connectives, literals, numbers and calls. Attribute names, axis names and function names have been
resolved; an element name that names no type is kept as a test that no element passes.
-/

namespace UiTree.Query

/-- The direction in which a step looks from a node. -/
inductive Axis where
  | child | descendant | descendantOrSelf | self | parent | ancestor | ancestorOrSelf
  | followingSibling | precedingSibling | attributes
deriving DecidableEq, Repr

namespace Axis

/-- Every axis. -/
def all : List Axis :=
  [.child, .descendant, .descendantOrSelf, .self, .parent, .ancestor, .ancestorOrSelf,
    .followingSibling, .precedingSibling, .attributes]

/-- The name of an axis in a query. -/
def name : Axis → String
  | child => "child"
  | descendant => "descendant"
  | descendantOrSelf => "descendant-or-self"
  | self => "self"
  | parent => "parent"
  | ancestor => "ancestor"
  | ancestorOrSelf => "ancestor-or-self"
  | followingSibling => "following-sibling"
  | precedingSibling => "preceding-sibling"
  | attributes => "attribute"

/-- The axis with a name. -/
def ofName? (s : String) : Option Axis :=
  all.find? (·.name == s)

end Axis

/-- What a step asks of a node on its axis. -/
inductive NodeTest where
  /-- Any node passes. -/
  | anyNode
  /-- Any node of the axis' principal kind passes: an attribute on the attribute axis, an element
  on the others. -/
  | anyName
  /-- An element of the type passes. No element passes when the name was no type. -/
  | element (type : Option ElementType)
  /-- That attribute passes. -/
  | named (a : DocumentAttribute)
deriving DecidableEq, Repr

/-- The connectives and comparisons. -/
inductive Operator where
  | or | and | equal | notEqual | less | lessEqual | greater | greaterEqual
deriving DecidableEq, Repr

/-- The functions that a query can call. -/
inductive Function where
  | position | last | not | contains | startsWith | count | stringLength
deriving DecidableEq, Repr

namespace Function

/-- Every function. -/
def all : List Function :=
  [.position, .last, .not, .contains, .startsWith, .count, .stringLength]

/-- The name of a function in a query. -/
def name : Function → String
  | position => "position"
  | last => "last"
  | not => "not"
  | contains => "contains"
  | startsWith => "starts-with"
  | count => "count"
  | stringLength => "string-length"

/-- The function with a name. -/
def ofName? (s : String) : Option Function :=
  all.find? (·.name == s)

/-- Whether a function takes so many arguments. -/
def accepts : Function → Nat → Bool
  | position, n | last, n => n == 0
  | not, n | count, n => n == 1
  | contains, n | startsWith, n => n == 2
  | stringLength, n => n ≤ 1

end Function

mutual

/-- An expression of a query. -/
inductive Expr where
  | binary (op : Operator) (left right : Expr)
  | union (parts : List Expr)
  /-- A location path; an absolute one starts at the root of the document. -/
  | path (absolute : Bool) (steps : List Step)
  | literal (text : String)
  | number (value : Float)
  | call (function : Function) (arguments : List Expr)

/-- A step of a location path. -/
inductive Step where
  | mk (axis : Axis) (test : NodeTest) (predicates : List Expr)

end

instance : Inhabited Expr := ⟨.literal ""⟩

namespace Step

/-- The step that a single point stands for. -/
def here : Step := .mk .self .anyNode []

/-- The step that two points stand for. -/
def up : Step := .mk .parent .anyNode []

/-- The step that two slashes insert. -/
def anywhere : Step := .mk .descendantOrSelf .anyNode []

end Step

mutual

/-- Whether the value of an expression is always a set of nodes. -/
def Expr.selectsNodes : Expr → Bool
  | .path _ _ => true
  | .union parts => Expr.allSelectNodes parts
  | _ => false

/-- Whether the values of all expressions are always sets of nodes. -/
def Expr.allSelectNodes : List Expr → Bool
  | [] => true
  | e :: es => e.selectsNodes && Expr.allSelectNodes es

end

/-- The attributes that a step reads itself, apart from its predicates. A step along the attribute
axis that names no attribute may meet each of them. -/
def testReads (axis : Axis) : NodeTest → AttributeSet
  | .named a => .ofList [a.source]
  | .anyName | .anyNode => if axis = .attributes then .all else ∅
  | .element _ => ∅

mutual

/-- The attributes that an expression reads. -/
def Expr.reads : Expr → AttributeSet
  | .binary _ a b => a.reads ∪ b.reads
  | .union parts => Expr.allRead parts
  | .call _ arguments => Expr.allRead arguments
  | .path _ steps => Step.allRead steps
  | .literal _ | .number _ => ∅

/-- The attributes that a step reads. -/
def Step.reads : Step → AttributeSet
  | .mk axis test predicates => testReads axis test ∪ Expr.allRead predicates

/-- The attributes that some expressions read. -/
def Expr.allRead : List Expr → AttributeSet
  | [] => ∅
  | e :: es => e.reads ∪ Expr.allRead es

/-- The attributes that some steps read. -/
def Step.allRead : List Step → AttributeSet
  | [] => ∅
  | s :: ss => s.reads ∪ Step.allRead ss

end

end UiTree.Query
