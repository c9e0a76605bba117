import Camlet.Diagnostic.Basic
import Camlet.Report.Emphasis
import Camlet.Text.Lines

/-
  Reports of diagnostics. A report gives the place and the stage of a diagnostic and its message, with
  the arguments in bold. If the place lies in the text that is being run, its line follows with the
  offending piece marked: the first argument of the diagnostic if it stands at that place, and
  otherwise one character.
-/

namespace Camlet

/-- What reports need to know: how they are shown, whether an error ends the program, the name of the
text being run, and its lines. -/
structure Reporter where
  style : Emphasis
  fatal : Bool := true
  path : String := "<in>"
  lines : List (List Char) := []

namespace Reporter

/-- Turns to another text. -/
def register (r : Reporter) (path source : String) : Reporter :=
  { r with path := path, lines := Text.lines source.toList }

/-- The line of a place, if the text has it. -/
def line? (r : Reporter) (line : Int) : Option (List Char) :=
  if 0 < line then r.lines[(line - 1).toNat]? else none

/-- A line with every tab replaced by a space, so that each character takes one column. -/
def untabbed (l : List Char) : List Char := l.map fun c => if c = '\t' then ' ' else c

/-- How many characters of a line are marked from `start` on. -/
def markedWidth (l : List Char) (start : Nat) (exprs : List String) : Nat :=
  match exprs with
  | [] => 1
  | e :: _ => if e.toList.isPrefixOf (l.drop start) then max e.length 1 else 1

/-- The line of a diagnostic with the offending piece marked, and a line that underlines it. -/
def excerpt? (r : Reporter) (mark : Mark) (d : Diagnostic) : Option String :=
  (r.line? d.pos.line).map fun l =>
    let l := untabbed l
    let start := (d.pos.column - 1).toNat
    let stop := min (start + markedWidth l start d.exprs) (max l.length (start + 1))
    let piece := (l.take stop).drop start
    let underline := '^' :: List.replicate (stop - start - 1) '~'
    "  " ++ String.ofList (l.take start) ++ r.style.marked mark (String.ofList piece) ++
      String.ofList (l.drop stop) ++ "\n  " ++ String.ofList (List.replicate start ' ') ++
      r.style.marked mark (String.ofList underline)

/-- The place of a diagnostic in front of its report. -/
def location (r : Reporter) (pos : Pos) : String :=
  if pos.line = 0 then r.path ++ ": "
  else r.path ++ ":" ++ Number.writeInt pos.line ++ ":" ++ Number.writeInt pos.column ++ ": "

/-- The report of a diagnostic, an excerpt included unless it is internal. -/
def report (r : Reporter) (mark : Mark) (d : Diagnostic) : String :=
  let head := r.style.bold (r.location d.pos) ++
    (if d.internal then r.style.marked mark "[internal] " else "") ++
    r.style.marked mark (d.stage.title ++ ": ") ++
    d.template.fill (d.exprs.map r.style.bold) ++ "\n"
  match if d.internal then none else r.excerpt? mark d with
  | some e => head ++ e ++ "\n"
  | none => head

end Reporter

end Camlet
