/-
  Blank characters and the trimming of texts. Blanks are the white space of Unicode together with the
  four ASCII separators U+001C to U+001F. Lines of source are counted by `\n` alone, whatever else is
  blank.
-/

namespace Camlet.Text

/-- A character that separates tokens and carries no meaning of its own. -/
def isBlank (c : Char) : Bool :=
  let n := c.toNat
  (9 ≤ n && n ≤ 13) || (0x1c ≤ n && n ≤ 0x20) || n == 0x85 || n == 0xa0 || n == 0x1680
    || (0x2000 ≤ n && n ≤ 0x200a) || n == 0x2028 || n == 0x2029 || n == 0x202f || n == 0x205f
    || n == 0x3000

/-- The text without its trailing blanks. -/
def trimEnd (cs : List Char) : List Char :=
  (cs.reverse.dropWhile isBlank).reverse

/-- The text without its leading and trailing blanks. -/
def trim (cs : List Char) : List Char :=
  trimEnd (cs.dropWhile isBlank)

/-- Whether nothing but blanks is left of the text. -/
def isAllBlank (cs : List Char) : Bool := cs.all isBlank

end Camlet.Text
