import UiTree.Number.Positional

/-!
# Tokens of query text

The closed set of tokens of path expressions, and how an error message names each of them.
-/

namespace UiTree.Query

/-- A token with a fixed spelling. -/
inductive Symbol where
  | slash | doubleSlash | openBracket | closeBracket | openParen | closeParen | at | dot | dotDot
  | comma | pipe | star | doubleColon | equal | notEqual | less | lessEqual | greater
  | greaterEqual
deriving DecidableEq, Repr

namespace Symbol

/-- The spelling of a symbol. -/
def text : Symbol → String
  | slash => "/"
  | doubleSlash => "//"
  | openBracket => "["
  | closeBracket => "]"
  | openParen => "("
  | closeParen => ")"
  | .at => "@"
  | dot => "."
  | dotDot => ".."
  | comma => ","
  | pipe => "|"
  | star => "*"
  | doubleColon => "::"
  | equal => "="
  | notEqual => "!="
  | less => "<"
  | lessEqual => "<="
  | greater => ">"
  | greaterEqual => ">="

/-- The symbols of two characters, which are tried before those of one. -/
def long : List Symbol :=
  [doubleSlash, doubleColon, notEqual, lessEqual, greaterEqual, dotDot]

/-- The symbols of one character. -/
def short : List Symbol :=
  [slash, openBracket, closeBracket, openParen, closeParen, .at, dot, comma, pipe, star, equal,
    less, greater]

end Symbol

/-- A token of a query. -/
inductive Token where
  | symbol (s : Symbol)
  /-- A quoted string, without its quotes. -/
  | literal (text : String)
  | number (value : Float)
  | name (text : String)

/-- A token with the byte offset at which it begins. -/
structure Located where
  token : Token
  offset : Nat

/-- How numbers of a query are spelled in messages. -/
def messageSpelling : Number.Spelling := ⟨"NaN", "inf", true⟩

/-- What a message calls a token that was found. -/
def Token.describe : Token → String
  | symbol s => "'" ++ s.text ++ "'"
  | literal s => "string '" ++ s ++ "'"
  | number x => "number " ++ Number.text messageSpelling x
  | name s => "'" ++ s ++ "'"

end UiTree.Query
