import UiTree.Snapshot.Basic
import UiTree.Text.Search

/-!
# Attribute predicates

A predicate is a disjunction of conjunctions of conditions, each of which compares the text of one
attribute with a given text. An attribute that was not captured has the empty text.
-/

namespace UiTree

/-- How a condition compares. -/
inductive MatchOp where
  | equals | differs | beginsWith | endsWith | contains
deriving DecidableEq, Repr

namespace MatchOp

/-- Whether the actual text compares with the expected one. -/
def compare (op : MatchOp) (actual expected : String) : Bool :=
  match op with
  | equals => actual == expected
  | differs => actual != expected
  | beginsWith => Text.startsWith actual expected
  | endsWith => Text.endsWith actual expected
  | contains => Text.contains actual expected

/-- The spelling of an operator. -/
def symbol : MatchOp → String
  | equals => "=="
  | differs => "!="
  | beginsWith => "BEGINSWITH"
  | endsWith => "ENDSWITH"
  | contains => "CONTAINS"

end MatchOp

/-- The text that a predicate compares. The frame is compared as a whole, and the identity is that
of the node's reference. -/
def SnapshotNode.comparedText? (n : SnapshotNode) : Attribute → Option String
  | .frame => n.properties.frame.map fun f => f.whole.text
  | .uid => n.ref.identity?.map Identity.text
  | .type => n.text? .type
  | .value => n.text? .value
  | .name => n.text? .name
  | .label => n.text? .label
  | .enabled => n.text? .enabled
  | .visible => n.text? .visible
  | .selected => n.text? .selected
  | .accessible => n.text? .accessible
  | .container => n.text? .container
  | .focused => n.text? .focused
  | .index => n.text? .index
  | .traits => n.text? .traits

/-- One comparison. -/
structure Condition where
  subject : Attribute
  op : MatchOp
  value : String
deriving DecidableEq, Repr

namespace Condition

/-- Whether a node satisfies the condition. -/
def holds (c : Condition) (n : SnapshotNode) : Bool :=
  c.op.compare ((n.comparedText? c.subject).getD "") c.value

/-- A value with a backslash before each single quote. -/
def escape (s : String) : List Char :=
  s.toList.flatMap fun c => if c == '\'' then ['\\', '\''] else [c]

/-- The text of the condition. -/
def text (c : Condition) : String :=
  c.subject.longName ++ " " ++ c.op.symbol ++ " '" ++ String.ofList (escape c.value) ++ "'"

end Condition

/-- A disjunction of conjunctions of conditions. -/
structure Predicate where
  clauses : List (List Condition)
deriving DecidableEq, Repr

namespace Predicate

/-- Whether a node satisfies all conditions of some clause. -/
def holds (p : Predicate) (n : SnapshotNode) : Bool :=
  p.clauses.any fun clause => clause.all (·.holds n)

/-- The positions of the nodes that satisfy the predicate, in document order. -/
def find (p : Predicate) (s : Snapshot) : List Nat :=
  s.positions p.holds

/-- The attributes that the predicate reads. -/
def attributes (p : Predicate) : AttributeSet :=
  .ofList (p.clauses.flatten.map (·.subject))

/-- The text of a clause. -/
def clauseText (clause : List Condition) : String :=
  " AND ".intercalate (clause.map Condition.text)

/-- The text of the predicate. -/
def text (p : Predicate) : String :=
  " OR ".intercalate (p.clauses.map clauseText)

end Predicate

end UiTree
