import Camlet.Diagnostic.Basic
import Camlet.Typing.Basic

/-
  Faults of meaning: why a program that can be read must not be run. A fault names the types it is
  about as messages spell them, and the piece of source that a report may mark.
-/

namespace Camlet

/-- Why a declaration is refused. -/
inductive TypeFault where
  | notAnalyzable (className : String)
  | alreadyDeclared (name : String)
  | undeclared (name : String)
  | condition (snippet found : String)
  | branches (thenType elseType : String)
  | cases (before found : String)
  | notFunction (snippet found : String)
  | logicalOperand (operator snippet found : String)
  | floatOperand (operator snippet found : String)
  | numericOperand (operator snippet found : String)
  | operands (operator left right : String)
  | unknownOperator (operator : String)
  | floatSign (operator found : String)
  | numericSign (operator found : String)
  | tooDeep
  deriving DecidableEq, Repr

namespace TypeFault

/-- The wording of a fault. -/
def template : TypeFault → Template
  | notAnalyzable _ => [.text "cannot analyze '", .slot 0, .text "' nodes"]
  | alreadyDeclared _ => [.text "'", .slot 0, .text "' is already declared in this scope"]
  | undeclared _ => [.text "undeclared variable '", .slot 0, .text "'"]
  | condition .. => [.text "condition of 'if' must be a boolean (Int), found ", .slot 1]
  | branches .. =>
    [.text "type mismatch between 'then' and 'else' branches: ", .slot 1, .text " vs ", .slot 2]
  | cases .. => [.text "type mismatch between match cases: ", .slot 1, .text " vs ", .slot 2]
  | notFunction .. => [.text "applied a non-function: this expression has type ", .slot 1]
  | logicalOperand .. =>
    [.text "operator '", .slot 1, .text "' expects boolean (Int) operands, found ", .slot 2]
  | floatOperand .. => [.text "operator '", .slot 1, .text "' expects Float operands, found ", .slot 2]
  | numericOperand .. =>
    [.text "operator '", .slot 1, .text "' expects numeric operands, found ", .slot 2]
  | operands .. =>
    [.text "type mismatch between operands of '", .slot 1, .text "': ", .slot 2, .text " vs ", .slot 3]
  | unknownOperator _ => [.text "unknown operator '", .slot 0, .text "'"]
  | floatSign .. => [.text "operator '", .slot 0, .text "' expects a Float operand, found ", .slot 1]
  | numericSign .. =>
    [.text "operator '", .slot 0, .text "' expects a numeric operand, found ", .slot 1]
  | tooDeep => [.text "expression is nested too deeply"]

/-- The arguments of a fault's wording, the piece of source to mark first. -/
def exprs : TypeFault → List String
  | notAnalyzable s | alreadyDeclared s | undeclared s | unknownOperator s => [s]
  | condition snippet found | notFunction snippet found => [snippet, found]
  | branches a b => ["if", a, b]
  | cases a b => ["", a, b]
  | logicalOperand operator snippet found | floatOperand operator snippet found
  | numericOperand operator snippet found => [snippet, operator, found]
  | operands operator left right => ["", operator, left, right]
  | floatSign operator found | numericSign operator found => [operator, found]
  | tooDeep => []

end TypeFault

/-- A fault of meaning at a place as a diagnostic. -/
def Located.typeDiagnostic (f : Located TypeFault) : Diagnostic :=
  ⟨.semantic, f.val.template, f.val.exprs, f.pos, false⟩

/-- What a program may be warned of without being refused. -/
inductive Warning where
  /-- A case behind one that matches everything; that one stands on the given line. -/
  | unusedCase (line : Int)
  deriving DecidableEq, Repr

/-- A warning at a place as a diagnostic. -/
def Located.warningDiagnostic (w : Located Warning) : Diagnostic :=
  match w.val with
  | .unusedCase line =>
    ⟨.warning, [.text "this match case is unused: the case at line ", .slot 1,
      .text " already matches everything"], ["|", Number.writeInt line], w.pos, false⟩

end Camlet
