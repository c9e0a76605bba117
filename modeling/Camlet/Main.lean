import Camlet.CommandLine.Basic

/-
  The program at a terminal or a pipe: it takes its arguments, the file and the lines of standard input
  from outside, and writes what the library gives. A dialogue answers each line before it reads the
  next.
-/

namespace Camlet.Main

/-- What is found under a file name. -/
def readContent (path : String) : IO FileContent := do
  try return .bytes ((← IO.FS.readBinFile path).toList.map (·.toNat))
  catch _ => return .unreadable

/-- Leaves as a run ended: with its code, or with a crash on the error output. -/
def leave {α : Type} : Except Ending α → IO UInt32
  | .ok _ => return 0
  | .error (.exit code) => return UInt32.ofNat ((code.getD 0) % 256).toNat
  | .error (.crash c) => do
    (← IO.getStderr).putStr (c.label ++ ": " ++ c.message ++ "\n")
    return 1

/-- Writes everything that a run gave. -/
def deliver (f : CommandLine.Finish) : IO UInt32 := do
  (← IO.getStdout).putStr f.out
  (← IO.getStderr).putStr f.err
  leave f.ending

/-- The next line of standard input without its end; the end of input reads as a line of its own. -/
def nextLine : IO String := do
  let line ← (← IO.getStdin).getLine
  if line.isEmpty then return Shell.endLine
  else return String.ofList (line.toList.reverse.dropWhile (· == '\n')).reverse

/-- Writes a text at once. -/
def say (s : String) : IO Unit := do
  let output ← IO.getStdout
  output.putStr s
  output.flush

/-- Leads a dialogue from a state of the shell on. -/
partial def converse (s : Shell) : IO UInt32 := do
  say s.prompt
  let step := s.feed (← nextLine)
  say step.out
  match step.ending with
  | .ok true => return 0
  | .ok false => converse step.shell
  | .error e =>
    let (out, ending) := (step.shell.session.reporter.settle (.ending e)).collect
    say out
    leave ending

end Camlet.Main

open Camlet in
/-- Runs the program under its arguments. -/
def main (args : List String) : IO UInt32 := do
  let style : Style := ⟨← (← IO.getStdout).isTty⟩
  match Request.ofArguments args with
  | .ok (.run (some path) options) =>
    Main.deliver (CommandLine.runFile style options path (← Main.readContent path))
  | .ok (.run none options) =>
    Main.say (Shell.intro ++ "\n")
    Main.converse { session := .interactiveWith style options }
  | _ => Main.deliver (CommandLine.main style args (fun _ => .unreadable) "")
