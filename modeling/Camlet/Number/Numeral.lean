import Camlet.Text.Blank
import Camlet.Text.Digit

/-
  Reading whole numbers and writing them. A numeral may stand between blanks, may have a sign, and may
  separate its digits by single underscores; its digits are the decimal digits of any script. Numerals
  of more than 4300 digits, leading zeros included, are neither read nor written.
-/

namespace Camlet.Number

/-- The longest numeral that is read or written, in digits. -/
def maxDigits : Nat := 4300

/-- The blanks that may stand around a numeral: all but the ASCII separators. -/
def isNumeralBlank (c : Char) : Bool :=
  if c.val < 0x80 then c == ' ' || (9 ≤ c.val && c.val ≤ 13) else Text.isBlank c

/-- The text between the blanks around a numeral. -/
def trimNumeral (cs : List Char) : List Char :=
  ((cs.dropWhile isNumeralBlank).reverse.dropWhile isNumeralBlank).reverse

/-- Splits a sign off: whether it is a minus, and what follows. -/
def splitSign : List Char → Bool × List Char
  | '-' :: cs => (true, cs)
  | '+' :: cs => (false, cs)
  | cs => (false, cs)

/-- The longest run of digits at the start of a text, single underscores between them skipped, and the
text behind it. -/
def splitDigits : List Char → List Nat × List Char
  | '_' :: cs => ([], '_' :: cs)
  | c :: '_' :: d :: cs =>
    match Text.anyDigit? c, Text.anyDigit? d with
    | some n, some _ => let (ns, rest) := splitDigits (d :: cs); (n :: ns, rest)
    | some n, none => ([n], '_' :: d :: cs)
    | none, _ => ([], c :: '_' :: d :: cs)
  | c :: cs =>
    match Text.anyDigit? c with
    | some n => let (ns, rest) := splitDigits cs; (n :: ns, rest)
    | none => ([], c :: cs)
  | [] => ([], [])

/-- The number with the given decimal digits, the highest first. -/
def ofDigits (ds : List Nat) : Nat := ds.foldl (fun n d => 10 * n + d) 0

/-- `n`, or its opposite. -/
def signed (negative : Bool) (n : Nat) : Int := if negative then -(n : Int) else n

/-- The whole number that a text spells, if it spells one of at most `maxDigits` digits. -/
def readInt? (s : String) : Option Int :=
  let (negative, cs) := splitSign (trimNumeral s.toList)
  match splitDigits cs with
  | ([], _) => none
  | (ds, []) => if ds.length ≤ maxDigits then some (signed negative (ofDigits ds)) else none
  | (_, _ :: _) => none

/-- The decimal digits of a number, without leading zeros. -/
def digits (n : Nat) : List Char := Nat.toDigits 10 n

/-- A natural number in decimal. -/
def writeNat (n : Nat) : String := String.ofList (digits n)

/-- A whole number in decimal, however long. -/
def writeInt (n : Int) : String :=
  String.ofList (if n < 0 then '-' :: digits n.natAbs else digits n.natAbs)

/-- A whole number in decimal, if it has at most `maxDigits` digits. -/
def showInt? (n : Int) : Option String :=
  if n.natAbs < Nat.pow 10 maxDigits then some (writeInt n) else none

end Camlet.Number
