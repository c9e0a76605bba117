import Camlet.Number.Numeral
import Camlet.Pos

/-
  Tokens: the classified pieces of a source text, each with the place of its first character. A
  malformed stretch of text is a token too, with a note that says what is wrong with it.
-/

namespace Camlet

/-- The class of a token. -/
inductive TokenKind where
  | keyword
  | identifier
  | backtickIdent
  | int
  | float
  | string
  | char
  | operator
  | delimiter
  | comment
  | error
  | endOfInput
  deriving DecidableEq, Repr, Inhabited

namespace TokenKind

/-- Every class of token, in the order of the classification. -/
def all : List TokenKind :=
  [keyword, identifier, backtickIdent, int, float, string, char, operator, delimiter, comment, error,
    endOfInput]

/-- The name of a class in printed tokens. -/
def name : TokenKind → String
  | keyword => "Keyword"
  | identifier => "Identifier"
  | backtickIdent => "BacktickIdent"
  | int => "Int"
  | float => "Float"
  | string => "String"
  | char => "Char"
  | operator => "Operator"
  | delimiter => "Delimiter"
  | comment => "Comment"
  | error => "Error"
  | endOfInput => "EndOfInput"

/-- The class of a given name. -/
def ofName? (s : String) : Option TokenKind := all.find? (·.name == s)

end TokenKind

/-- A classified lexeme at a place. `note` explains an `error` token. -/
structure Token where
  kind : TokenKind
  lexeme : String
  pos : Pos
  note : Option String := none
  deriving DecidableEq, Repr, Inhabited

namespace Token

/-- Whether the token has the given class and spelling. -/
def isA (t : Token) (kind : TokenKind) (lexeme : String) : Bool :=
  t.kind == kind && t.lexeme == lexeme

/-- Whether two tokens agree in all but their notes. -/
def sameAs (a b : Token) : Bool :=
  a.kind == b.kind && a.lexeme == b.lexeme && a.pos == b.pos

/-- The line that lists a token when a token stream is printed. -/
def render (t : Token) : String :=
  t.kind.name ++ " '" ++ t.lexeme ++ "' (" ++ Number.writeInt t.pos.line ++ ":" ++
    Number.writeInt t.pos.column ++ ")"

end Token

end Camlet
