import UiTree.Query.Axis
import UiTree.Query.Lexer

/-!
# Values of expressions

An expression has a set of nodes, a text, a number or a truth value for its value. Values are
converted where another kind is needed, and compared by rules that depend on both kinds: a
comparison with a set of nodes asks whether some node of the set compares.
-/

namespace UiTree.Query

/-- The value of an expression. The nodes of a set are in document order. -/
inductive Value where
  | nodes (ns : List DocNode)
  | text (s : String)
  | number (x : Float)
  | truth (b : Bool)
deriving Inhabited

/-- How the numbers of a query turn into text. -/
def numberSpelling : Number.Spelling := ⟨"NaN", "Infinity", false⟩

/-- The digits before and after the point of a digit string with at most one point, which has to
have a digit. -/
def decimalParts? (cs : List Char) : Option (List Char × List Char) :=
  let whole := leadingDigits cs
  match cs.drop whole.length with
  | [] => if whole.isEmpty then none else some (whole, [])
  | c :: rest =>
    let fraction := leadingDigits rest
    if c == '.' && fraction.length == rest.length && !(whole.isEmpty && fraction.isEmpty) then
      some (whole, fraction)
    else none

/-- The number that a text spells between white space: an optional minus, and digits with at most
one point. Any other text is not a number. -/
def textToNumber (s : String) : Float :=
  let trimmed := Text.trim s.toList
  let (negative, digits) := match trimmed with
    | '-' :: rest => (true, rest)
    | _ => (false, trimmed)
  match decimalParts? digits with
  | none => 0 / 0
  | some (whole, fraction) =>
    let x := Number.ofDigits whole fraction
    if negative then -x else x

namespace Value

/-- A set or a text is true unless it is empty, a number unless it is zero or not a number. -/
def toTruth : Value → Bool
  | nodes ns => !ns.isEmpty
  | text s => !s.isEmpty
  | number x => !(x == 0) && !x.isNaN
  | truth b => b

/-- The text of a set is that of its first node. -/
def toText (d : Document) : Value → String
  | nodes ns => (ns.head?.map d.textOf).getD ""
  | text s => s
  | number x => Number.text numberSpelling x
  | truth b => SnapshotNode.truthText b

/-- The number of a truth value is one or zero; a set is converted by its text. -/
def toNumber (d : Document) : Value → Float
  | number x => x
  | truth b => if b then 1 else 0
  | text s => textToNumber s
  | nodes ns => textToNumber (toText d (nodes ns))

/-- Whether the values are equal: as truth values if one is one, else as numbers if one is one,
else as texts. -/
def equal (d : Document) (a b : Value) : Bool :=
  match a, b with
  | truth _, _ | _, truth _ => a.toTruth == b.toTruth
  | number _, _ | _, number _ => a.toNumber d == b.toNumber d
  | _, _ => a.toText d == b.toText d

/-- Compare two values neither of which is a set of nodes. Order is of numbers. -/
def compareSingle (d : Document) (op : Operator) (a b : Value) : Bool :=
  match op with
  | .equal => a.equal d b
  | .notEqual => !a.equal d b
  | .less => a.toNumber d < b.toNumber d
  | .lessEqual => a.toNumber d ≤ b.toNumber d
  | .greater => a.toNumber d > b.toNumber d
  | .greaterEqual => a.toNumber d ≥ b.toNumber d
  | .or => a.toTruth || b.toTruth
  | .and => a.toTruth && b.toTruth

/-- Compare two values. A set is compared with a truth value as a whole, and with anything else by
the texts of its nodes. -/
def compare (d : Document) (op : Operator) : Value → Value → Bool
  | nodes as, nodes bs =>
    as.any fun a => bs.any fun b => compareSingle d op (text (d.textOf a)) (text (d.textOf b))
  | nodes as, truth b => compareSingle d op (truth (nodes as).toTruth) (truth b)
  | truth a, nodes bs => compareSingle d op (truth a) (truth (nodes bs).toTruth)
  | nodes as, b => as.any fun a => compareSingle d op (text (d.textOf a)) b
  | a, nodes bs => bs.any fun b => compareSingle d op a (text (d.textOf b))
  | a, b => compareSingle d op a b

end Value

end UiTree.Query
