import Camlet.Report.Basic

/-
  Output, and what ends it early. An error is reported, and ends the program if the reporter is fatal.
  What ends a step that a reporter watches over is settled: it is reported as far as it is an error, and
  only leaving, and a crash for which there is no report of its own, go on outwards.
-/

namespace Camlet

/-- What ends a program or a step of it early: leaving with a code, or a crash. -/
inductive Ending where
  | exit (code : Option Int)
  | crash (crash : Crash)

/-- A step that writes to the output. What was written outlives an early end. -/
abbrev Console (α : Type) := EStateM Ending String α

namespace Console

/-- Writes a text. -/
def write (s : String) : Console Unit := modify (· ++ s)

/-- Writes a line. -/
def writeLine (s : String) : Console Unit := write (s ++ "\n")

/-- Writes lines. -/
def writeLines (ls : List String) : Console Unit := write (String.join (ls.map (· ++ "\n")))

/-- The output of a step, and how it ended. -/
def collect {α : Type} (x : Console α) : String × Except Ending α :=
  match x "" with
  | .ok a out => (out, .ok a)
  | .error e out => (out, .error e)

end Console

/-- What may be raised inside a step that a reporter watches over. -/
inductive Raised where
  | diagnostic (d : Diagnostic)
  | interrupt
  | ending (e : Ending)

namespace Reporter

open Console

/-- Reports a warning. -/
def warn (r : Reporter) (d : Diagnostic) : Console Unit := write (r.report .warning d)

/-- Reports an error, and leaves if that is fatal. -/
def fail (r : Reporter) (d : Diagnostic) : Console Unit := do
  write (r.report .error d)
  if r.fatal then throw (.exit (some 1))

/-- Reports errors, and leaves after the last if there are any and that is fatal. -/
def failAll (r : Reporter) (ds : List Diagnostic) : Console Unit := do
  write (String.join (ds.map (r.report .error)))
  if !ds.isEmpty && r.fatal then throw (.exit (some 1))

/-- The report of nesting too deep for any stage to place it. -/
def depthExceeded : Diagnostic := ⟨.runtime, [.text "maximum recursion depth exceeded"], [], {}, false⟩

/-- The report of an interruption from outside. -/
def interrupted : Diagnostic := ⟨.general, [.text "keyboard interrupt"], [], {}, false⟩

/-- The report of a crash that has none of its own. -/
def unknownError (c : Crash) : Diagnostic :=
  ⟨.general, [.text "unknown error: '", .slot 0, .text "'"], [c.label ++ ": " ++ c.message], {}, true⟩

/-- Settles what was raised: leaving goes on, a crash goes on once it is reported, and everything else
ends with its report. -/
def settle (r : Reporter) : Raised → Console Unit
  | .diagnostic d => r.fail d
  | .interrupt => r.fail interrupted
  | .ending (.exit code) => throw (.exit code)
  | .ending (.crash .tooDeep) => r.fail depthExceeded
  | .ending (.crash c) => do
    r.fail (unknownError c)
    throw (.crash c)

end Reporter

end Camlet
