import Camlet.Session.Basic
import Camlet.Text.Blank

/-
  The interactive shell. Lines are gathered until one ends with `;;`; then they are run as one input. A
  line that starts an input may be a command instead, unless it ends with `;;`: `help` (also written
  `?`), `exit` and `EOF`, whatever stands behind the word.
-/

namespace Camlet

/-- The prompt for a new input. -/
def Shell.primaryPrompt : String := "# "

/-- The prompt for a line that goes on with an input, which is blank. -/
def Shell.continuationPrompt : String := "  "

/-- A shell: its session, the lines of an input that is not complete, and what it prompts with. -/
structure Shell where
  session : Session
  pending : String := ""
  prompt : String := Shell.primaryPrompt

/-- What a line is to the shell. -/
inductive ShellCommand where
  | nothing
  | help
  | exit
  | endOfInput
  | input (text : String)
  deriving DecidableEq, Repr

namespace Shell

/-- The greeting of a shell. -/
def intro : String :=
  "minicaml toplevel :: Python backend\nType 'help' for more information, 'exit' or Ctrl-D to quit."

/-- What `help` prints. -/
def helpText : String :=
  "Welcome to the minicaml toplevel!\n\n" ++
  "minicaml is a small subset of OCaml: let bindings, functions (curried, with partial \n" ++
  "application), let rec, if/then/else, match with '_' and name patterns, and Int, Float, \n" ++
  "String and Char values. Booleans are Ints: comparisons give 1 or 0.\n\n" ++
  "End every input with ';;'. Try 'let add a b = a + b;;', then 'add 2 3;;'. Bindings \n" ++
  "stay available in later inputs and may be redefined."

/-- Whether a text ends with `;;`, blanks aside. -/
def isComplete (cs : List Char) : Bool := [';', ';'].isSuffixOf (Text.trimEnd cs)

/-- The pending input with a line added, and whether it needs more lines. A blank line starts no
input, and a blank input needs no more lines. -/
def gather (pending line : String) : String × Bool :=
  let source := if pending.isEmpty && Text.isAllBlank line.toList then "" else pending ++ line ++ "\n"
  (source, !Text.isAllBlank source.toList && !isComplete source.toList)

/-- A character of the word of a command. -/
def isWordChar (c : Char) : Bool := c.isAlphanum || c == '_'

/-- What a line is that starts an input and does not complete it. Input is taken without the blanks
around it. -/
def command (line : String) : ShellCommand :=
  let cs := Text.trim line.toList
  match cs with
  | [] => .nothing
  | '?' :: _ => .help
  | _ =>
    let word := String.ofList (cs.takeWhile isWordChar)
    if word = "help" then .help
    else if word = "exit" then .exit
    else if word = "EOF" then .endOfInput
    else .input (String.ofList cs)

/-- What feeding a line gives: the output, the shell afterwards, whether it stops, unless the program was
ended, and the input that the session ran, if one was complete. -/
structure Step where
  out : String
  shell : Shell
  ending : Except Ending Bool
  input : Option String := none

/-- A step that runs nothing. -/
def answer (s : Shell) (out : String) (stop : Bool) : Step := { out, shell := s, ending := .ok stop }

/-- Runs a complete input. What ends that early is settled, and goes on outwards or not. -/
def perform (s : Shell) (source : String) : Step :=
  let t := s.session.turn source
  let s := { s with session := t.session }
  match t.ending with
  | .ok _ => { out := t.out, shell := s, ending := .ok false, input := source }
  | .error e =>
    let (out, ending) := (t.session.reporter.settle (.ending e)).collect
    { out := t.out ++ out, shell := s, ending := ending.map fun _ => false, input := source }

/-- Adds a line to the pending input, and runs that if it is complete. -/
def enter (s : Shell) (line : String) : Step :=
  let (source, more) := gather s.pending line
  if more then answer { s with pending := source, prompt := continuationPrompt } "" false
  else
    let s := { s with pending := "", prompt := primaryPrompt }
    if source.isEmpty then s.answer "" false else s.perform source

/-- Feeds a line to the shell. -/
def feed (s : Shell) (line : String) : Step :=
  if !s.pending.isEmpty || isComplete line.toList then s.enter line
  else
    match command line with
    | .nothing => s.answer "" false
    | .help => s.answer (helpText ++ "\n") false
    | .exit => s.answer "" true
    | .endOfInput => s.answer "\n" true
    | .input text => s.enter text

/-- The end of an input is read as this line. -/
def endLine : String := "EOF"

/-- How a dialogue ends with a step; `none` if it goes on. -/
def Step.finish? (step : Step) : Option (Except Ending Unit) :=
  match step.ending with
  | .ok true => some (.ok ())
  | .ok false => none
  | .error e => some (.error e)

/-- Feeds lines until the shell stops, each behind a prompt. Behind the last line the end of the input is read, as
often as the shell asks for a line. It stops the shell at once or never, and if never there is no ending: the output
is then followed by prompts only. -/
def feedAll (s : Shell) : List String → String × Option (Except Ending Unit)
  | [] =>
    let step := s.feed endLine
    (s.prompt ++ step.out, step.finish?)
  | line :: lines =>
    let step := s.feed line
    let out := s.prompt ++ step.out
    match step.finish? with
    | some ending => (out, some ending)
    | none =>
      let (more, ending) := step.shell.feedAll lines
      (out ++ more, ending)

/-- A whole dialogue, from the greeting on. -/
def dialogue (s : Shell) (lines : List String) : String × Option (Except Ending Unit) :=
  let (out, ending) := s.feedAll lines
  (intro ++ "\n" ++ out, ending)

end Shell

end Camlet
