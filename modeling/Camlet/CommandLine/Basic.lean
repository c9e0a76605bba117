import Camlet.CommandLine.Arguments
import Camlet.Report.Terminal
import Camlet.Shell
import Camlet.Text.Utf8

/-
  The program as a whole: it runs a file, or leads a dialogue over standard input if no file is given.
  Files are read as UTF-8 texts. Everything the program takes from outside is an argument here, and
  everything it gives is part of the result.
-/

namespace Camlet

/-- What is found under a file name. -/
inductive FileContent where
  /-- No file that can be read. -/
  | unreadable
  | bytes (content : List Nat)

namespace CommandLine

/-- The short description of the arguments. -/
def usage : String := "usage: minicaml [-h] [--tokens] [--ast] [--recursion-limit N] [file]\n"

/-- The full description of the arguments. -/
def help : String := usage ++
  "\nInterpreter for a small subset of OCaml.\n\n" ++
  "positional arguments:\n" ++
  "  file                 file to interpret and run (if empty, goes to command-\n" ++
  "                       line mode)\n\n" ++
  "options:\n" ++
  "  -h, --help           show this help message and exit\n" ++
  "  --tokens             print the token stream of every input\n" ++
  "  --ast                print the syntax tree of every input\n" ++
  "  --recursion-limit N  maximum depth of nested function applications (default:\n" ++
  "                       1000)\n"

/-- Everything a run of the program gives: output, errors, and how it ended. A dialogue may be endless; then its
output goes on with prompts. -/
structure Finish where
  out : String
  err : String := ""
  ending : Except Ending Unit
  endless : Bool := false

/-- The report of a file that cannot be read. -/
def notOpened (path : String) : Diagnostic :=
  ⟨.general, [.text "'", .slot 0, .text "' could not be opened"], [path], {}, false⟩

/-- The report of a file that has the name kept for dialogues. -/
def reservedName : Diagnostic := ⟨.general, [.text "'<in>' is a reserved filename"], [], {}, false⟩

/-- The text of a file, or what is raised if there is none. -/
def readSource (path : String) : FileContent → Except Raised String
  | .unreadable =>
    if path.toList.contains '\x00' then .error (.ending (.crash .nulInName))
    else .error (.diagnostic (notOpened path))
  | .bytes content =>
    match Text.decodeUtf8 content with
    | .ok cs => .ok (String.ofList (Text.universalNewlines cs))
    | .error f => .error (.ending (.crash (.undecodable f)))

/-- The end of a run with something raised, behind the output so far. -/
def settled (reporter : Reporter) (out : String) (e : Raised) : Finish :=
  let (more, ending) := (reporter.settle e).collect
  { out := out ++ more, ending }

/-- Runs a file. -/
def runFile (style : Style) (options : Options) (path : String) (content : FileContent) : Finish :=
  let reporter : Reporter := { style := style.emphasis }
  if path = Session.interactivePath then settled reporter "" (.diagnostic reservedName)
  else
    match readSource path content with
    | .error e => settled reporter "" e
    | .ok source =>
      let t := ({ reporter, path, interactive := false, options } : Session).turn source
      match t.ending with
      | .ok _ => { out := t.out, ending := .ok () }
      | .error e => settled t.session.reporter t.out (.ending e)

/-- Leads a dialogue over the lines of an input. -/
def runShell (style : Style) (options : Options) (lines : List String) : Finish :=
  let session := Session.interactiveWith style.emphasis options
  match ({ session } : Shell).dialogue lines with
  | (out, none) => { out, ending := .ok (), endless := true }
  | (out, some (.ok _)) => { out, ending := .ok () }
  | (out, some (.error e)) => settled session.reporter out (.ending e)

/-- The lines of an input, their ends left out. A text behind the last `\n` is a line of its own. -/
def inputLines (input : String) : List String :=
  let parts := input.splitOn "\n"
  if parts.getLast? = some "" then parts.dropLast else parts

/-- A run of the program under arguments, with the files and the input it finds. -/
def main (style : Style) (args : List String) (files : String → FileContent) (input : String) :
    Finish :=
  match Request.ofArguments args with
  | .error e =>
    { out := "", err := usage ++ "minicaml: error: " ++ e.message ++ "\n",
      ending := .error (.exit (some 2)) }
  | .ok .help => { out := help, ending := .error (.exit (some 0)) }
  | .ok .unlimited => settled { style := style.emphasis } "" (.ending (.crash .limitMissing))
  | .ok (.run (some path) options) => runFile style options path (files path)
  | .ok (.run none options) => runShell style options (inputLines input)

end CommandLine

end Camlet
