import Camlet.Number.Numeral
import Camlet.Text.Quoted
import Camlet.Text.Utf8

/-
  Crashes: failures that no stage turns into a report of its own. A crash ends the whole run, and is
  shown by a label and a message. Trees that the parser builds meet few of them; trees, tokens and
  templates given from outside can meet them all.
-/

namespace Camlet

/-- Why a run was given up. -/
inductive Crash where
  /-- A tree nested too deeply to be printed or compared. -/
  | tooDeep
  /-- A whole number of too many digits to be written. -/
  | digitLimit
  /-- A remainder without a value, such as that of an infinity. -/
  | noRemainder
  /-- A text that spells no floating-point number. -/
  | unreadableNumber (text : String)
  /-- A node used as a declaration or as a recursive function that lacks the attribute needed. -/
  | missingAttribute (owner member : String)
  /-- A function declared without parameters. -/
  | noParameters
  /-- A template with a slot beyond its arguments. -/
  | missingArgument (index : Nat)
  /-- A template with a slot of a name that nothing has. -/
  | unknownSlot (name : String)
  /-- A template that is not well formed. -/
  | badTemplate (reason : String)
  /-- Bytes that are no text. -/
  | undecodable (fault : Text.Utf8Fault)
  /-- A file name with a NUL character. -/
  | nulInName
  /-- A limit of nested applications whose frames cannot be counted in 32 bits. -/
  | limitOutOfRange
  /-- A limit of nested applications under which not even one frame is left. -/
  | limitTooLow
  /-- A limit of nested applications that was asked for without a number. -/
  | limitMissing
  /-- A failure from outside, under its own label. -/
  | other (label message : String)
  deriving DecidableEq, Repr

namespace Crash

/-- The label under which a crash is shown. -/
def label : Crash → String
  | tooDeep => "RecursionError"
  | digitLimit | noRemainder | unreadableNumber _ | noParameters | badTemplate _ | nulInName
  | limitTooLow => "ValueError"
  | limitOutOfRange => "OverflowError"
  | limitMissing => "TypeError"
  | missingAttribute _ _ => "AttributeError"
  | missingArgument _ => "IndexError"
  | unknownSlot _ => "KeyError"
  | undecodable _ => "UnicodeDecodeError"
  | other label _ => label

/-- The first bytes of a fault in encoded text, and where they are. -/
def faultPlace (f : Text.Utf8Fault) : String :=
  if f.stop = f.start + 1 then
    "byte 0x" ++ String.ofList (Text.hex 2 f.byte) ++ " in position " ++ Number.writeNat f.start
  else "bytes in position " ++ Number.writeNat f.start ++ "-" ++ Number.writeNat (f.stop - 1)

/-- The message of a crash. -/
def message : Crash → String
  | tooDeep => ""
  | digitLimit => "Exceeds the limit (4300 digits) for integer string conversion; " ++
      "use sys.set_int_max_str_digits() to increase the limit"
  | noRemainder => "math domain error"
  | unreadableNumber text => "could not convert string to float: " ++ Text.quoted text
  | missingAttribute owner member =>
    "'" ++ owner ++ "' object has no attribute '" ++ member ++ "'"
  | noParameters => "not enough values to unpack (expected at least 1, got 0)"
  | missingArgument index =>
    "Replacement index " ++ Number.writeNat index ++ " out of range for positional args tuple"
  | unknownSlot name => Text.quoted name
  | badTemplate reason => reason
  | undecodable fault => "'utf-8' codec can't decode " ++ faultPlace fault ++ ": " ++
      fault.reason.message
  | nulInName => "embedded null byte"
  | limitOutOfRange => "Python int too large to convert to C int"
  | limitTooLow => "recursion limit must be greater or equal than 1"
  | limitMissing => "'<' not supported between instances of 'list' and 'int'"
  | other _ message => message

end Crash

end Camlet
