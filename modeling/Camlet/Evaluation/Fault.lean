import Camlet.Diagnostic.Basic
import Camlet.Typing.Basic

/-
  Faults of evaluation: why a declaration has no value.
-/

namespace Camlet

/-- Why a declaration has no value. -/
inductive RuntimeFault where
  | notEvaluable (className : String)
  | undefined (name : String)
  | condition (found : Kind)
  | noMatch (shown : String)
  | notFunction (found : Kind)
  /-- Applications nested as deep as the limit allows. -/
  | applicationDepth (limit : Int)
  /-- A division or a remainder by zero. -/
  | byZero (remainder : Bool)
  | unknownOperator (operator : String)
  | numericOperand (operator : String) (found : Kind)
  /-- Evaluation nested too deeply, whatever the nested expressions are. -/
  | stackOverflow (declaration : String)
  /-- A whole number too large for floating point. -/
  | tooLarge (declaration : String)
  deriving DecidableEq, Repr

namespace RuntimeFault

/-- The wording of a fault. -/
def template : RuntimeFault → Template
  | notEvaluable _ => [.text "cannot evaluate '", .slot 0, .text "' nodes"]
  | undefined _ => [.text "undefined variable '", .slot 0, .text "'"]
  | condition _ => [.text "condition of 'if' must be a boolean (Int), found ", .slot 0]
  | noMatch _ => [.text "match failure: no case matches ", .slot 0]
  | notFunction _ => [.text "applied a non-function value of kind ", .slot 1]
  | applicationDepth _ =>
    [.text "stack overflow: more than ", .slot 1, .text " nested applications"]
  | byZero _ => [.slot 0, .text " by zero"]
  | unknownOperator _ => [.text "unknown operator '", .slot 0, .text "'"]
  | numericOperand .. =>
    [.text "operator '", .slot 1, .text "' expects numeric operands, found ", .slot 2]
  | stackOverflow _ => [.text "stack overflow while evaluating '", .slot 0, .text "'"]
  | tooLarge _ => [.text "arithmetic error while evaluating '", .slot 0, .text "': ", .slot 1]

/-- The arguments of a fault's wording. -/
def exprs : RuntimeFault → List String
  | notEvaluable s | undefined s | noMatch s | unknownOperator s | stackOverflow s => [s]
  | condition found => [found.name]
  | notFunction found => ["", found.name]
  | applicationDepth limit => ["", Number.writeInt limit]
  | byZero remainder => [if remainder then "modulo" else "division"]
  | numericOperand operator found => ["", operator, found.name]
  | tooLarge declaration => [declaration, "int too large to convert to float"]

end RuntimeFault

/-- A fault of evaluation at a place as a diagnostic. -/
def Located.runtimeDiagnostic (f : Located RuntimeFault) : Diagnostic :=
  ⟨.runtime, f.val.template, f.val.exprs, f.pos, false⟩

end Camlet
