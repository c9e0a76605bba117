import Camlet.Number.Numeral
import Camlet.Session.Basic
import Camlet.Text.Quoted

/-
  The arguments of the program: an optional file and some options. An option may be cut short as long as
  only one begins that way, and may hold its value behind `=`; a value may also be the next argument.
  Behind `--` there are no options. Short options may be joined. An argument that looks like a negative
  number, or that has a space in it and is not an option, is no option.
-/

namespace Camlet

/-- The options. -/
inductive OptionName where
  | help
  | tokens
  | ast
  | recursionLimit
  deriving DecidableEq, Repr

/-- The spellings of the options, in the order in which messages list them. -/
def optionSpellings : List (String × OptionName) :=
  [("-h", .help), ("--help", .help), ("--tokens", .tokens), ("--ast", .ast),
    ("--recursion-limit", .recursionLimit)]

/-- The name of an option in messages. -/
def OptionName.title : OptionName → String
  | help => "-h/--help"
  | tokens => "--tokens"
  | ast => "--ast"
  | recursionLimit => "--recursion-limit"

/-- Why arguments are refused. -/
inductive UsageError where
  | ambiguous (argument : String) (options : List String)
  | ignoredValue (option : OptionName) (value : String)
  | missingValue (option : OptionName)
  | invalidInt (option : OptionName) (value : String)
  | unrecognized (arguments : List String)
  | notPositive
  deriving DecidableEq, Repr

/-- The wording of a refusal. -/
def UsageError.message : UsageError → String
  | ambiguous argument options =>
    "ambiguous option: " ++ argument ++ " could match " ++ String.intercalate ", " options
  | ignoredValue option value =>
    "argument " ++ option.title ++ ": ignored explicit argument " ++ Text.quoted value
  | missingValue option => "argument " ++ option.title ++ ": expected one argument"
  | invalidInt option value =>
    "argument " ++ option.title ++ ": invalid int value: " ++ Text.quoted value
  | unrecognized arguments => "unrecognized arguments: " ++ String.intercalate " " arguments
  | notPositive => "--recursion-limit must be positive"

/-- What arguments ask for: help, or a run of a file or a dialogue under options. A run under a limit
without a number comes to nothing. -/
inductive Request where
  | help
  | run (file : Option String) (options : Options)
  | unlimited

namespace Arguments

/-- What an argument looks like. An option may have a value joined to it: behind `=`, or directly behind
a short option. -/
inductive Shape where
  | plain
  | separator
  | option (name : OptionName) (short : Bool) (joined : Option (List Char))
  | unknown
  deriving DecidableEq, Repr

/-- The option of exactly this spelling. -/
def spelled? (cs : List Char) : Option OptionName :=
  (optionSpellings.find? (·.1.toList == cs)).map (·.2)

/-- Whether an option of this spelling is a short one. -/
def isShort (cs : List Char) : Bool := cs.take 2 != ['-', '-']

/-- Splits a text at its first `=`. -/
def splitAssigned (cs : List Char) : List Char × Option (List Char) :=
  match cs.dropWhile (· ≠ '=') with
  | [] => (cs, none)
  | _ :: value => (cs.takeWhile (· ≠ '='), some value)

/-- Whether a text is a minus and a decimal number, a line end behind it or not. -/
def looksNegative (cs : List Char) : Bool :=
  let cs := if cs.getLast? = some '\n' then cs.dropLast else cs
  let isDigit (c : Char) : Bool := (Text.anyDigit? c).isSome
  match cs with
  | '-' :: ds =>
    match ds.dropWhile isDigit with
    | [] => !ds.isEmpty
    | '.' :: fs => !fs.isEmpty && fs.all isDigit
    | _ => false
  | _ => false

/-- The options that an argument may mean by its beginning, each with its spelling and what is joined
to it. -/
def candidates (cs : List Char) : List (String × OptionName × Bool × Option (List Char)) :=
  if isShort cs then
    optionSpellings.filterMap fun (s, name) =>
      if s.toList = cs.take 2 then some (s, name, true, some (cs.drop 2))
      else if cs.isPrefixOf s.toList then some (s, name, false, none)
      else none
  else
    let (start, value) := splitAssigned cs
    optionSpellings.filterMap fun (s, name) =>
      if start.isPrefixOf s.toList then some (s, name, false, value) else none

/-- What an argument that starts with a minus and is no option in full looks like. -/
def guess (cs : List Char) : Except UsageError Shape :=
  match candidates cs with
  | [(_, name, short, joined)] => .ok (.option name short joined)
  | [] => .ok (if looksNegative cs || cs.contains ' ' then .plain else .unknown)
  | many => .error (.ambiguous (String.ofList cs) (many.map (·.1)))

/-- What an argument in front of any `--` looks like. -/
def shape (s : String) : Except UsageError Shape :=
  let cs := s.toList
  if cs = ['-', '-'] then .ok .separator
  else if cs.head? ≠ some '-' then .ok .plain
  else
    match spelled? cs with
    | some name => .ok (.option name (isShort cs) none)
    | none =>
      if cs.length = 1 then .ok .plain
      else
        match splitAssigned cs with
        | (start, some value) =>
          match spelled? start with
          | some name => .ok (.option name (isShort start) (some value))
          | none => guess cs
        | (_, none) => guess cs

/-- All arguments with what they look like: behind the first `--` all are plain. -/
def shapes : List String → Except UsageError (List (String × Shape))
  | [] => .ok []
  | a :: as => do
    match ← shape a with
    | .separator => return (a, .separator) :: as.map (·, .plain)
    | s => return (a, s) :: (← shapes as)

/-- What was read so far: the file, once its place was passed, the options, and the arguments that have
no place. The limit is `none` if it was asked for without a number. -/
structure Reading where
  file : Option (Option String) := none
  showTokens : Bool := false
  showTree : Bool := false
  limit : Option Int := some defaultLimit
  extras : List String := []

/-- Where arguments are read from next, or that help was asked for. -/
inductive Progress where
  | help
  | next (reading : Reading) (rest : List (String × Shape))

/-- Passes the place of the file, which takes a plain argument if one is next, separators around it
left out. -/
def takeFile (r : Reading) (args : List (String × Shape)) : Reading × List (String × Shape) :=
  match r.file with
  | some _ => (r, args)
  | none =>
    let isSeparator (a : String × Shape) : Bool := a.2 == .separator
    match args.dropWhile isSeparator with
    | (a, .plain) :: rest => ({ r with file := some (some a) }, rest.dropWhile isSeparator)
    | rest => ({ r with file := some none }, rest)

/-- Sets the limit to a value given as text. A separator is passed over and leaves no number. -/
def setLimit (r : Reading) (value : String) : Except UsageError Reading :=
  if value = "--" then .ok { r with limit := none }
  else
    match Number.readInt? value with
    | some n => .ok { r with limit := some n }
    | none => .error (.invalidInt .recursionLimit value)

/-- Turns on an option that takes no value. -/
def turnOn (r : Reading) : OptionName → Reading
  | .tokens => { r with showTokens := true }
  | .ast => { r with showTree := true }
  | .help | .recursionLimit => r

/-- Checks that what is joined to an option that takes no value is further short options: only `-h` can be
followed by such, and only by itself. -/
def checkJoined (name : OptionName) (short : Bool) (joined : List Char) : Except UsageError Unit :=
  let left := if short then joined.dropWhile (· = 'h') else joined
  if joined.isEmpty || !left.isEmpty then .error (.ignoredValue name (String.ofList left)) else .ok ()

/-- Reads an option and its value; `rest` are the arguments behind it. -/
def takeOption (r : Reading) (rest : List (String × Shape)) (name : OptionName) (short : Bool)
    (joined : Option (List Char)) : Except UsageError Progress := do
  match name, joined with
  | .recursionLimit, some v => return .next (← setLimit r (String.ofList v)) rest
  | .recursionLimit, none =>
    match rest with
    | (a, .plain) :: rest => return .next (← setLimit r a) rest
    | _ => .error (.missingValue name)
  | _, _ =>
    match joined with
    | some v => checkJoined name short v
    | none => pure ()
    return if name = .help then .help else .next (turnOn r name) rest

/-- Whether an argument looks like an option. -/
def isOption (a : String × Shape) : Bool :=
  match a.2 with
  | .option .. | .unknown => true
  | .plain | .separator => false

/-- Reads arguments. Each step passes an argument, or the place of the file, so `fuel` is enough if it
exceeds the number of arguments. -/
def read : (fuel : Nat) → Reading → List (String × Shape) → Except UsageError Progress
  | 0, r, rest => .ok (.next r rest)
  | fuel + 1, r, args =>
    if args.any isOption then
      match args with
      | (_, .option name short joined) :: rest => do
        match ← takeOption r rest name short joined with
        | .help => return .help
        | .next r rest => read fuel r rest
      | (a, .unknown) :: rest => read fuel { r with extras := r.extras ++ [a] } rest
      | (a, _) :: rest =>
        if r.file.isNone then
          let (r, rest) := takeFile r args
          read fuel r rest
        else read fuel { r with extras := r.extras ++ [a] } rest
      | [] => .ok (.next r [])
    else
      let (r, rest) := takeFile r args
      .ok (.next { r with extras := r.extras ++ rest.map (·.1) } [])

end Arguments

/-- What arguments ask for. -/
def Request.ofArguments (args : List String) : Except UsageError Request := do
  match ← Arguments.read (args.length + 1) {} (← Arguments.shapes args) with
  | .help => return .help
  | .next r _ =>
    if !r.extras.isEmpty then .error (.unrecognized r.extras)
    else
      match r.limit with
      | none => return .unlimited
      | some limit =>
        if limit < 1 then .error .notPositive
        else return .run (r.file.bind id) { showTokens := r.showTokens, showTree := r.showTree, limit }

end Camlet
