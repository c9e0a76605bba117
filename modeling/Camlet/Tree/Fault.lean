import Camlet.Diagnostic.Basic

/-
  Syntax faults: why a list of tokens is no program. Each fault has one wording, and says which pieces
  of source a report may mark.
-/

namespace Camlet

/-- What the grammar asks for at a place. -/
inductive Expectation where
  | expression
  | pattern
  | parameter
  | binder (recursive : Bool)
  | equals (name : String) (params : List String)
  | keywordIn
  | keywordThen
  | keywordElse
  | keywordWith
  | arrowAfterParams
  | arrowAfterPattern
  | caseBar
  | closing (opening : Pos)
  | endOfDeclaration
  deriving DecidableEq, Repr

/-- The words for what is expected. -/
def Expectation.phrase : Expectation → String
  | expression => "an expression"
  | pattern => "a pattern ('_' or an identifier)"
  | parameter => "a parameter after 'fun'"
  | binder recursive => "an identifier after '" ++ (if recursive then "let rec" else "let") ++ "'"
  | equals name params => "'=' after '" ++ String.intercalate " " (name :: params) ++ "'"
  | keywordIn => "'in'"
  | keywordThen => "'then' after the condition"
  | keywordElse => "'else' after the 'then' branch"
  | keywordWith => "'with' after the matched expression"
  | arrowAfterParams => "'->' after the parameters"
  | arrowAfterPattern => "'->' after the pattern"
  | caseBar => "'|' to start a case"
  | closing opening => "')' to close the '(' at line " ++ Number.writeInt opening.line ++ ", column " ++
      Number.writeInt opening.column
  | endOfDeclaration => "';;' or the end of the declaration"

/-- Why tokens are no program. -/
inductive SyntaxFault where
  /-- A malformed token, where no token would do or another was expected. -/
  | malformed (lexeme : String) (note : Option String)
  | unexpected (lexeme : String) (expected : Expectation)
  | unexpectedEnd (expected : Expectation)
  | repeatedParam (name : String)
  /-- A recursive binding of something that is not a function. -/
  | notFunction (name : String)
  /-- A whole number that is not read, for its length above all. -/
  | tooLarge (lexeme : String)
  /-- A token given as a floating-point number that spells none. -/
  | unreadable (lexeme : String)
  | tooDeep
  deriving DecidableEq, Repr

namespace SyntaxFault

/-- The stage that a fault belongs to: malformed tokens are lexical errors. -/
def stage : SyntaxFault → Stage
  | malformed .. => .lexical
  | _ => .syntactic

/-- The wording of a fault. -/
def template : SyntaxFault → Template
  | malformed .. => [.slot 1, .text ": '", .slot 0, .text "'"]
  | unexpected .. => [.text "expected ", .slot 1, .text " but found '", .slot 0, .text "'"]
  | unexpectedEnd _ => [.text "expected ", .slot 1, .text " but found end of input"]
  | repeatedParam _ => [.text "parameter '", .slot 0, .text "' is bound several times"]
  | notFunction _ =>
    [.text "'let rec' can only bind a function, '", .slot 0, .text "' is not one"]
  | tooLarge _ => [.text "integer literal '", .slot 0, .text "' is too large"]
  | unreadable _ => [.text "float literal '", .slot 0, .text "' cannot be read"]
  | tooDeep => [.text "expression is nested too deeply"]

/-- The arguments of a fault's wording. -/
def exprs : SyntaxFault → List String
  | malformed lexeme note => [lexeme, note.getD "None"]
  | unexpected lexeme expected => [lexeme, expected.phrase]
  | unexpectedEnd expected => ["", expected.phrase]
  | repeatedParam s | notFunction s | tooLarge s | unreadable s => [s]
  | tooDeep => []

end SyntaxFault

/-- A syntax fault at a place as a diagnostic. -/
def Located.syntaxDiagnostic (f : Located SyntaxFault) : Diagnostic :=
  ⟨f.val.stage, f.val.template, f.val.exprs, f.pos, false⟩

end Camlet
