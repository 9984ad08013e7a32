import UiTree.Query.Lexer
import UiTree.Query.Expr
import UiTree.Error

/-!
# From tokens to expressions

An expression is read by precedence: `or`, then `and`, then equality, then order, then unions of
paths. Each level joins operands of the next one from the left. Whatever can be checked on the
text alone is checked here: names of attributes, axes and functions, numbers of arguments, and that
unions and counts are of paths.

## Implementation notes

A parser takes the tokens that are left and returns what it read and the tokens it left over. Every
parser below takes as an argument the parser `inner` of the expressions inside parentheses and
brackets, so that only `expression` is recursive. It descends one level at each opening token,
hence never further than there are tokens.
-/

namespace UiTree.Query

/-- Reads something from the tokens that are left. -/
abbrev Parser (α : Type) := List Located → Except Refusal (α × List Located)

namespace Parser

variable {α : Type}

/-- The offset of the next token, or of the end of the text. -/
def offset (stop : Nat) : List Located → Nat
  | [] => stop
  | t :: _ => t.offset

/-- Refuse because of what comes next. -/
def refuse (stop : Nat) (what : Expectation) (ts : List Located) : Except Refusal α :=
  .error (.malformed (offset stop ts) (.expected what (ts.head?.map (·.token))))

/-- The tokens after a symbol, if it comes next. -/
def eat? (s : Symbol) : List Located → Option (List Located)
  | ⟨.symbol found, _⟩ :: rest => if found = s then some rest else none
  | _ => none

/-- The tokens after a symbol, which has to come next. -/
def expect (stop : Nat) (s : Symbol) (what : Expectation) (ts : List Located) :
    Except Refusal (List Located) :=
  match eat? s ts with
  | some rest => .ok rest
  | none => refuse stop what ts

/-- Go on from a value as long as `next` takes more tokens, at most `limit` times. -/
def repeatWith (next : α → List Located → Option (Except Refusal (α × List Located))) :
    Nat → α → Parser α
  | 0, a, ts => .ok (a, ts)
  | limit + 1, a, ts =>
    match next a ts with
    | none => .ok (a, ts)
    | some result => do
      let (a, ts) ← result
      repeatWith next limit a ts

/-- Go on from a value as long as `next` takes more tokens. -/
def repeated (next : α → List Located → Option (Except Refusal (α × List Located))) (a : α) :
    Parser α :=
  fun ts => repeatWith next ts.length a ts

/-- The operator that a token stands for between two operands. -/
def operator? : Token → Option Operator
  | .name "or" => some .or
  | .name "and" => some .and
  | .symbol .equal => some .equal
  | .symbol .notEqual => some .notEqual
  | .symbol .less => some .less
  | .symbol .lessEqual => some .lessEqual
  | .symbol .greater => some .greater
  | .symbol .greaterEqual => some .greaterEqual
  | _ => none

/-- The next operator, if it is one of the given ones, and the tokens after it. -/
def operatorOf? (ops : List Operator) : List Located → Option (Operator × List Located)
  | t :: rest =>
    match operator? t.token with
    | some op => if ops.contains op then some (op, rest) else none
    | none => none
  | [] => none

/-- Operands joined from the left by the given operators. -/
def joined (ops : List Operator) (operand : Parser Expr) : Parser Expr := fun ts => do
  let (first, ts) ← operand ts
  repeated (fun left ts =>
    (operatorOf? ops ts).map fun (op, ts) => do
      let (right, ts) ← operand ts
      .ok (.binary op left right, ts)) first ts

/-- Paths joined by bars. A single operand stands for itself. -/
def union (stop : Nat) (operand : Parser Expr) : Parser Expr := fun ts => do
  let start := offset stop ts
  let (first, ts) ← operand ts
  let (parts, ts) ← repeated (fun parts ts =>
    (eat? .pipe ts).map fun ts => do
      let (part, ts) ← operand ts
      .ok (parts ++ [part], ts)) [first] ts
  match parts with
  | [part] => .ok (part, ts)
  | parts =>
    if Expr.allSelectNodes parts then .ok (.union parts, ts)
    else .error (.malformed start .unionOfOther)

/-- The arguments of a call, up to the closing parenthesis. -/
def arguments (stop : Nat) (inner : Parser Expr) : Parser (List Expr) := fun ts =>
  match eat? .closeParen ts with
  | some ts => .ok ([], ts)
  | none => do
    let (first, ts) ← inner ts
    let (found, ts) ← repeated (fun found ts =>
      (eat? .comma ts).map fun ts => do
        let (next, ts) ← inner ts
        .ok (found ++ [next], ts)) [first] ts
    let ts ← expect stop .closeParen .commaOrCloseParen ts
    .ok (found, ts)

/-- A call of the function named by a token at `start`, after the opening parenthesis. -/
def call (stop : Nat) (inner : Parser Expr) (start : Nat) (name : String) : Parser Expr :=
  fun ts =>
    match Function.ofName? name with
    | none => .error (.malformed start (.unknownFunction name))
    | some function => do
      let (found, ts) ← arguments stop inner ts
      if !function.accepts found.length then
        .error (.malformed start (.argumentCount name found.length))
      else if function = .count && !Expr.allSelectNodes found then
        .error (.malformed start .countOfOther)
      else .ok (.call function found, ts)

/-- The axis of a step and the tokens after it. A name before two colons is an axis name. -/
def axis : Parser Axis
  | ⟨.symbol .at, _⟩ :: rest => .ok (.attributes, rest)
  | ⟨.name name, start⟩ :: ⟨.symbol .doubleColon, _⟩ :: rest =>
    match Axis.ofName? name with
    | some axis => .ok (axis, rest)
    | none => .error (.malformed start (.unknownAxis name))
  | ts => .ok (.child, ts)

/-- The test of a step along an axis. -/
def nodeTest (stop : Nat) (axis : Axis) : Parser NodeTest
  | ⟨.symbol .star, _⟩ :: rest => .ok (.anyName, rest)
  | ⟨.name name, start⟩ :: ⟨.symbol .openParen, _⟩ :: rest =>
    if name = "node" then do
      let rest ← expect stop .closeParen .closeParen rest
      .ok (.anyNode, rest)
    else .error (.malformed start (.unsupportedTest name))
  | ⟨.name name, _⟩ :: rest =>
    if axis = .attributes then
      match DocumentAttribute.ofName? name with
      | some a => .ok (.named a, rest)
      | none => .error (.unknownAttribute name)
    else .ok (.element (ElementType.ofName? name), rest)
  | ts => refuse stop .nodeTest ts

/-- The predicates of a step. -/
def predicates (stop : Nat) (inner : Parser Expr) : Parser (List Expr) :=
  repeated (fun found ts =>
    (eat? .openBracket ts).map fun ts => do
      let (predicate, ts) ← inner ts
      let ts ← expect stop .closeBracket .closeBracket ts
      .ok (found ++ [predicate], ts)) []

/-- One step of a path. -/
def step (stop : Nat) (inner : Parser Expr) : Parser Step
  | ⟨.symbol .dot, _⟩ :: rest => .ok (.here, rest)
  | ⟨.symbol .dotDot, _⟩ :: rest => .ok (.up, rest)
  | ts => do
    let (axis, ts) ← axis ts
    let (test, ts) ← nodeTest stop axis ts
    let (predicates, ts) ← predicates stop inner ts
    .ok (.mk axis test predicates, ts)

/-- Whether a step may begin here. -/
def startsStep : List Located → Bool
  | ⟨.name _, _⟩ :: _ => true
  | ⟨.symbol s, _⟩ :: _ => s = .star || s = .at || s = .dot || s = .dotDot
  | _ => false

/-- The steps of a path after those that were read already. -/
def steps (stop : Nat) (inner : Parser Expr) (before : List Step) : Parser (List Step) :=
  fun ts => do
    let (first, ts) ← step stop inner ts
    repeated (fun found ts =>
      match eat? .slash ts with
      | some ts => some do
        let (next, ts) ← step stop inner ts
        .ok (found ++ [next], ts)
      | none =>
        (eat? .doubleSlash ts).map fun ts => do
          let (next, ts) ← step stop inner ts
          .ok (found ++ [.anywhere, next], ts)) (before ++ [first]) ts

/-- A location path. A slash that no step follows is the root. -/
def path (stop : Nat) (inner : Parser Expr) : Parser Expr
  | ⟨.symbol .slash, _⟩ :: rest =>
    if startsStep rest then do
      let (found, ts) ← steps stop inner [] rest
      .ok (.path true found, ts)
    else .ok (.path true [], rest)
  | ⟨.symbol .doubleSlash, _⟩ :: rest => do
    let (found, ts) ← steps stop inner [.anywhere] rest
    .ok (.path true found, ts)
  | ts => do
    let (found, ts) ← steps stop inner [] ts
    .ok (.path false found, ts)

/-- An operand: a literal, a number, an expression in parentheses, a call or a path. -/
def primary (stop : Nat) (inner : Parser Expr) : Parser Expr
  | [] => refuse stop .expression []
  | ⟨.literal s, _⟩ :: rest => .ok (.literal s, rest)
  | ⟨.number x, _⟩ :: rest => .ok (.number x, rest)
  | ⟨.symbol .openParen, _⟩ :: rest => do
    let (found, ts) ← inner rest
    let ts ← expect stop .closeParen .closeParen ts
    .ok (found, ts)
  | ⟨.name name, start⟩ :: ⟨.symbol .openParen, p⟩ :: rest =>
    if name = "node" then path stop inner (⟨.name name, start⟩ :: ⟨.symbol .openParen, p⟩ :: rest)
    else call stop inner start name rest
  | ts => path stop inner ts

/-- An expression whose parentheses and brackets hold expressions that `inner` reads. -/
def level (stop : Nat) (inner : Parser Expr) : Parser Expr :=
  joined [.or] <| joined [.and] <| joined [.equal, .notEqual] <|
    joined [.less, .lessEqual, .greater, .greaterEqual] <| union stop (primary stop inner)

/-- An expression in which parentheses and brackets are nested less than `depth` times. -/
def expression (stop : Nat) : Nat → Parser Expr
  | 0 => refuse stop .expression
  | depth + 1 => level stop (expression stop depth)

end Parser

/-- The expression that some tokens spell, all of them. -/
def parseTokens (stop : Nat) (ts : List Located) : Except Refusal Expr :=
  if ts.isEmpty then .error (.malformed 0 .emptyQuery)
  else do
    let (e, rest) ← Parser.expression stop (ts.length + 1) ts
    match rest with
    | [] => .ok e
    | extra :: _ => .error (.malformed extra.offset (.unexpected extra.token))

/-- The expression that a text spells. -/
def parse (text : String) : Except Refusal Expr :=
  match tokenize text with
  | .error (offset, fault) => .error (.malformed offset fault)
  | .ok ts => parseTokens text.utf8ByteSize ts

/-- A query that has been checked: its text, its expression and the attributes it reads. -/
structure Compiled where
  text : String
  expr : Expr
  attributes : AttributeSet

/-- Check a query. It has to select nodes, and it always reads the type of elements. -/
def compile (text : String) : Outcome Compiled :=
  match parse text with
  | .error refusal => .error (refusal.toError text)
  | .ok e =>
    if e.selectsNodes then .ok ⟨text, e, .ofList [.type] ∪ e.reads⟩
    else .error (.invalidQuery text 0 .selectsNoNodes)

end UiTree.Query
