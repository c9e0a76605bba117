/-
  The lines of a text as they are quoted in reports. A line ends at `\n`, `\r`, the two together, the
  vertical tab, the form feed, the separators U+001C to U+001E, U+0085, U+2028 or U+2029. An end of line
  at the end of the text opens no further line.
-/

namespace Camlet.Text

/-- A character that ends a line of a quoted text. -/
def endsLine (c : Char) : Bool :=
  let n := c.toNat
  (0xa ≤ n && n ≤ 0xd) || (0x1c ≤ n && n ≤ 0x1e) || n == 0x85 || n == 0x2028 || n == 0x2029

/-- Puts a character in front of the first line; the text behind it has the lines given. -/
def consLine (c : Char) : List (List Char) → List (List Char)
  | [] => [[c]]
  | l :: ls => (c :: l) :: ls

/-- The lines of a text, without their ends. -/
def lines : List Char → List (List Char)
  | [] => []
  | '\r' :: '\n' :: cs => [] :: lines cs
  | c :: cs => if endsLine c then [] :: lines cs else consLine c (lines cs)

end Camlet.Text
