import UiTree.Query.Token

/-!
# What is wrong with a query or a predicate

The closed set of reasons for which a text is no query or no predicate, and of reasons for which
an evaluation stops, each with its wording.
-/

namespace UiTree.Query

/-- What a parser was about to read. -/
inductive Expectation where
  | expression | nodeTest | closeParen | closeBracket | commaOrCloseParen
deriving DecidableEq, Repr

/-- The wording of an expectation. -/
def Expectation.text : Expectation → String
  | expression => "expression"
  | nodeTest => "node test"
  | closeParen => "')'"
  | closeBracket => "']'"
  | commaOrCloseParen => "',' or ')'"

/-- Why a text is no query or no predicate. -/
inductive SyntaxFault where
  | unterminatedLiteral
  | unexpectedCharacter (c : Char)
  | missingNumber
  | malformedNumber
  | emptyQuery
  | unexpected (found : Token)
  | expected (what : Expectation) (found : Option Token)
  | unknownAxis (name : String)
  | unknownFunction (name : String)
  | argumentCount (function : String) (count : Nat)
  | countOfOther
  | unionOfOther
  | unsupportedTest (name : String)
  | selectsNoNodes
  | expectedAttribute
  | expectedOperator
  | expectedValue
  | unterminatedValue
  | expectedConnective

/-- The wording of a fault. -/
def SyntaxFault.message : SyntaxFault → String
  | unterminatedLiteral => "unterminated string literal"
  | unexpectedCharacter c => "unexpected character '" ++ c.toString ++ "'"
  | missingNumber => "expected number"
  | malformedNumber => "malformed number"
  | emptyQuery => "empty query"
  | unexpected found => "unexpected " ++ found.describe
  | expected what none => "expected " ++ what.text ++ ", found end of query"
  | expected what (some found) => "expected " ++ what.text ++ ", found " ++ found.describe
  | unknownAxis name => "unknown axis '" ++ name ++ "'"
  | unknownFunction name => "unknown function '" ++ name ++ "'"
  | argumentCount function count =>
    "wrong number of arguments to '" ++ function ++ "': " ++ toString count
  | countOfOther => "count() expects a location path"
  | unionOfOther => "'|' only joins location paths"
  | unsupportedTest name => "unsupported node test '" ++ name ++ "()'"
  | selectsNoNodes => "expression does not select nodes"
  | expectedAttribute => "expected attribute name"
  | expectedOperator => "expected comparison operator"
  | expectedValue => "expected quoted value"
  | unterminatedValue => "unterminated quoted value"
  | expectedConnective => "expected AND, OR or end of predicate"

/-- Why a text is refused: it is malformed at a byte offset, or it names an attribute that does not
exist. -/
inductive Refusal where
  | malformed (offset : Nat) (fault : SyntaxFault)
  | unknownAttribute (name : String)

/-- Why an evaluation stops. Only the first can happen to a query that was compiled. -/
inductive EvaluationFault where
  /-- The node index belongs to another document. -/
  | foreignIndex
  | queryNotNodes (query : String)
  | unionNotNodes
  | countNotNodes
  | missingArgument (function : String) (position : Nat)
  | unindexed (element : Nat)
deriving DecidableEq, Repr

/-- The wording of a fault. -/
def EvaluationFault.message : EvaluationFault → String
  | foreignIndex => "document and node index do not belong together"
  | queryNotNodes query => "'" ++ query ++ "' does not select nodes"
  | unionNotNodes => "union operand is not a node-set"
  | countNotNodes => "count() argument is not a node-set"
  | missingArgument function position =>
    function ++ "() is missing argument " ++ toString position
  | unindexed element => "document element " ++ toString element ++ " missing from node index"

end UiTree.Query
