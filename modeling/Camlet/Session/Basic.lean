import Camlet.Report.Console
import Camlet.Session.Pipeline
import Camlet.Tree.Display

/-
  Sessions. A session runs texts one after the other and prints what comes of them. An interactive
  session keeps the bindings of the declarations that had a value, with their types, for the texts to
  come; nothing else of a text that fails is kept.
-/

namespace Camlet

/-- What a session prints besides results, and its limit of nested applications. -/
structure Options where
  showTokens : Bool := false
  showTree : Bool := false
  limit : Int := defaultLimit

/-- A session over texts named `path`, with the bindings that it keeps. -/
structure Session where
  reporter : Reporter
  path : String
  interactive : Bool
  options : Options := {}
  types : Frame := []
  values : Env := []

namespace Session

open Console

/-- The name of the text of an interactive session. -/
def interactivePath : String := "<in>"

/-- An interactive session. Its errors are not fatal. -/
def interactiveWith (style : Emphasis) (options : Options) : Session :=
  { reporter := { style, fatal := false }, path := interactivePath, interactive := true, options }

/-- Prints the lines of results and faults of evaluation, in order. -/
def showOutcomes (r : Reporter) : List Outcome → Console Unit
  | [] => return
  | .error f :: os => do
    write (r.report .error f.runtimeDiagnostic)
    showOutcomes r os
  | .ok v :: os => do
    match v.text with
    | .ok line => writeLine line
    | .error c => throw (.crash c)
    showOutcomes r os

/-- Prints what the options ask for: the tokens and the tree. -/
def showStages (options : Options) (r : Run) : Console Unit := do
  if options.showTokens then
    writeLines ((r.tokens.filter (·.kind != .endOfInput)).map Token.render)
  match r.program with
  | some p =>
    if options.showTree then
      match p.toNode.display? 0 with
      | some text => writeLine text
      | none => throw (.crash .tooDeep)
  | none => return

/-- Prints what came of a run: its errors, or else its warnings and results. -/
def showRun (reporter : Reporter) (options : Options) (r : Run) : Console Unit := do
  showStages options r
  reporter.failAll (r.syntaxErrors.map (·.syntaxDiagnostic))
  match r.analysis with
  | some a =>
    write (String.join (a.warnings.map fun w => reporter.report .warning w.warningDiagnostic))
    reporter.failAll (a.errors.map (·.typeDiagnostic))
  | none => return
  showOutcomes reporter r.outcomes

/-- Whether a declaration of the name had a value. -/
def evaluated (r : Run) (name : String) : Bool := r.results.any (·.name == name)

/-- The session after a run: an interactive one keeps what was bound by declarations that had a value. -/
def absorb (s : Session) (r : Run) : Session :=
  match s.interactive, r.analysis with
  | true, some a =>
    let kept := a.bindings.filter fun b => evaluated r b.1 && Bindings.has r.env b.1
    { s with
      types := s.types.absorb kept.reverse
      values := s.values.absorb (r.env.restrict (evaluated r)) }
  | _, _ => s

/-- What running a text in a session gives: the output, the session afterwards, and the run, unless the
program was ended. -/
structure Turn where
  out : String
  session : Session
  ending : Except Ending Run

/-- Runs a text. -/
def turn (s : Session) (source : String) : Turn :=
  let s := { s with reporter := s.reporter.register s.path source }
  match run source s.types s.values s.options.limit with
  | .error c => ⟨"", s, .error (.crash c)⟩
  | .ok r =>
    match (showRun s.reporter s.options r).collect with
    | (out, .error e) => ⟨out, s, .error e⟩
    | (out, .ok _) =>
      let s := s.absorb r
      if !r.runtimeErrors.isEmpty && s.reporter.fatal then ⟨out, s, .error (.exit (some 1))⟩
      else ⟨out, s, .ok r⟩

end Session

end Camlet
