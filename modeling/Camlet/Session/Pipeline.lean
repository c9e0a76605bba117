import Camlet.Evaluation.Basic
import Camlet.Typing.Analysis

/-
  Running a text through all stages: tokens, program, analysis, evaluation. A stage that finds errors is
  the last; only errors of evaluation leave the others of their stage standing.
-/

namespace Camlet

/-- What came of running a text, as far as it went. -/
structure Run where
  tokens : List Token
  program : Option Program := none
  syntaxErrors : List (Located SyntaxFault) := []
  analysis : Option Analysis := none
  outcomes : List Outcome := []
  /-- The environment after evaluation. -/
  env : Env := []

namespace Run

/-- The faults of evaluation. -/
def runtimeErrors (r : Run) : List (Located RuntimeFault) := r.outcomes.filterMap Outcome.fault?

/-- The results of the declarations that have one. -/
def results (r : Run) : List Result := r.outcomes.filterMap Outcome.result?

/-- The faults of the analysis. -/
def typeErrors (r : Run) : List (Located TypeFault) :=
  match r.analysis with
  | some a => a.errors
  | none => []

/-- All errors as diagnostics, in the order of the stages. -/
def errors (r : Run) : List Diagnostic :=
  r.syntaxErrors.map (·.syntaxDiagnostic) ++ r.typeErrors.map (·.typeDiagnostic) ++
    r.runtimeErrors.map (·.runtimeDiagnostic)

/-- Whether no stage found an error. -/
def ok (r : Run) : Bool := r.errors.isEmpty

end Run

/-- Runs a text in surroundings that bind the names of `types` and `values`, under a limit of nested
applications. -/
def run (source : String) (types : Frame) (values : Env) (limit : Int) : Except Crash Run := do
  let tokens := tokenize source
  let parsed := parseTokens tokens
  match parsed.errors, parsed.program with
  | [], some program =>
    let a ← analyze program.body types
    if a.ok then
      let (outcomes, env) ← evaluate limit program.body values
      return { tokens, program, analysis := a, outcomes, env }
    else return { tokens, program, analysis := a }
  | errors, program => return { tokens, program, syntaxErrors := errors }

end Camlet
