import Camlet.Diagnostic.Template
import Camlet.Number.Numeral
import Camlet.Pos

/-
  Diagnostics: messages about a place in a source text. The arguments of a diagnostic are kept apart
  from its template, because a report shows them in bold and marks the first of them in the source.
-/

namespace Camlet

/-- The stage that a diagnostic comes from. -/
inductive Stage where
  | lexical
  | syntactic
  | semantic
  | warning
  | runtime
  | general
  deriving DecidableEq, Repr

/-- The words for a stage in a report. -/
def Stage.title : Stage → String
  | lexical => "lexical error"
  | syntactic => "syntax error"
  | semantic => "semantic error"
  | warning => "warning"
  | runtime => "runtime error"
  | general => "error"

/-- A message about a place; `internal` marks a failure of the program itself. -/
structure Diagnostic where
  stage : Stage
  template : Template
  exprs : List String := []
  pos : Pos := {}
  internal : Bool := false
  deriving DecidableEq, Repr

namespace Diagnostic

/-- The message, without its place. -/
def message (d : Diagnostic) : String := d.template.fill d.exprs

/-- The message with its place in front, if that is known. -/
def text (d : Diagnostic) : String :=
  if d.pos.line = 0 then d.message
  else "line " ++ Number.writeInt d.pos.line ++ ", column " ++ Number.writeInt d.pos.column ++ ": " ++
    d.message

/-- Whether two diagnostics come from the same stage and read the same. -/
def sameAs (d e : Diagnostic) : Bool := d.stage == e.stage && d.text == e.text

/-- A diagnostic from a template given as text. -/
def ofTemplate (stage : Stage) (template : String) (exprs : List String) (pos : Pos)
    (internal : Bool) : Except Crash Diagnostic := do
  let pieces ← Template.parse template exprs.length
  return ⟨stage, pieces, exprs, pos, internal⟩

end Diagnostic

end Camlet
