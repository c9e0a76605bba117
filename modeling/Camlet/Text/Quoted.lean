import Camlet.Text.Printable

/-
  Quoted text. A text stands between single quotes, or between double quotes if it holds a single quote
  and no double one. The quote in use and the backslash are escaped by a backslash, `\n`, `\r` and `\t`
  have escapes of their own, and any other character without a visible form is written by its code
  point in hexadecimal, in two, four or eight digits.
-/

namespace Camlet.Text

/-- The last `width` hexadecimal digits of a number. -/
def hex : Nat → Nat → List Char
  | 0, _ => []
  | width + 1, n => hex width (n / 16) ++ [Nat.digitChar (n % 16)]

/-- The escape of a code point by its number. -/
def numericEscape (n : Nat) : List Char :=
  if n < 0x100 then '\\' :: 'x' :: hex 2 n
  else if n < 0x10000 then '\\' :: 'u' :: hex 4 n
  else '\\' :: 'U' :: hex 8 n

/-- A character as it stands between the given quotes. -/
def quoteChar (quote c : Char) : List Char :=
  if c = quote ∨ c = '\\' then ['\\', c]
  else if c = '\n' then ['\\', 'n']
  else if c = '\r' then ['\\', 'r']
  else if c = '\t' then ['\\', 't']
  else if isPrintable c then [c]
  else numericEscape c.toNat

/-- The quotes to put around a text. -/
def quoteFor (cs : List Char) : Char :=
  if cs.contains '\'' && !cs.contains '"' then '"' else '\''

/-- A text between quotes. -/
def quoted (s : String) : String :=
  let q := quoteFor s.toList
  String.ofList (q :: s.toList.flatMap (quoteChar q) ++ [q])

/-- Quoted texts in round brackets, separated by commas; a single one is followed by a comma. -/
def quotedTuple : List String → String
  | [] => "()"
  | [s] => "(" ++ quoted s ++ ",)"
  | ss => "(" ++ String.intercalate ", " (ss.map quoted) ++ ")"

end Camlet.Text
