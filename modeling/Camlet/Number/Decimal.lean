import Camlet.Number.Numeral
import Camlet.Number.Binary

/-
  Floating-point numbers in decimal. Reading takes the number nearest to the exact value of the text.
  Writing takes the fewest digits that read back to the same number, and of those the nearest to it.
-/

namespace Camlet.Number

/-- The number nearest to `± mantissa · 10 ^ exponent`. Exponents far outside the range of numbers are
decided by the size of the value alone. -/
def ofDecimal (negative : Bool) (mantissa : Nat) (exponent : Int) : Float :=
  let size : Int := (digits mantissa).length + exponent
  if mantissa = 0 ∨ size < -330 then ofBits negative 0
  else if size > 330 then infinity negative
  else if 0 ≤ exponent then ofRatio negative (mantissa * Nat.pow 10 exponent.toNat) 1
  else ofRatio negative mantissa (Nat.pow 10 (-exponent).toNat)

/-- The exponent part of a decimal, which must reach to the end of the text: nothing, or a mark, an
optional sign and digits. -/
def readExponent? : List Char → Option Int
  | [] => some 0
  | e :: cs =>
    if e = 'e' ∨ e = 'E' then
      let (negative, cs) := splitSign cs
      match splitDigits cs with
      | (d :: ds, []) => some (signed negative (ofDigits (d :: ds)))
      | _ => none
    else none

/-- The number that an unsigned decimal spells: digits with at most one point, a digit at least on one
side of it, and perhaps an exponent. -/
def readUnsigned? (negative : Bool) (cs : List Char) : Option Float := do
  let (whole, rest) := splitDigits cs
  let (fraction, rest) := match rest with
    | '.' :: rest => splitDigits rest
    | rest => ([], rest)
  let exponent ← readExponent? rest
  if whole.isEmpty && fraction.isEmpty then none
  else some (ofDecimal negative (ofDigits (whole ++ fraction)) (exponent - fraction.length))

/-- The number that a text spells, if it spells one: a decimal, or one of the words for infinity and
for no number, with an optional sign and between blanks. -/
def readFloat? (s : String) : Option Float :=
  let (negative, cs) := splitSign (trimNumeral s.toList)
  let word := String.ofList (cs.map Char.toLower)
  if word = "inf" ∨ word = "infinity" then some (infinity negative)
  else if word = "nan" then some nan
  else readUnsigned? negative cs

/-- A positive decimal `0.d₁d₂… · 10 ^ (exponent + 1)`: its digits, the first of them at the power
`exponent` of ten. -/
structure Scientific where
  digits : List Char
  exponent : Int
  deriving DecidableEq, Repr

/-- The power of ten at the leading digit of `num / den`; both are positive. -/
def leadingPower (num den : Nat) : Int :=
  if den ≤ num then (digits (num / den)).length - 1
  else
    let n := (digits (den / num)).length
    if den ≤ num * Nat.pow 10 (n - 1) then -((n : Int) - 1) else -(n : Int)

/-- A power of ten as a factor of the numerator and one of the denominator. -/
def tens (e : Int) : Nat × Nat :=
  if 0 ≤ e then (Nat.pow 10 e.toNat, 1) else (1, Nat.pow 10 (-e).toNat)

/-- The multiple of `10 ^ unit` next to `num / den` that lies between `low / den` and `high / den`, the
nearer if both neighbours do and the even one if they are equally near. The ends count if `closed`. -/
def neighbour? (num low high den : Nat) (closed : Bool) (unit : Int) : Option Nat :=
  let (up, down) := tens unit
  let grid := den * up
  let k := num * down / grid
  let inside (k : Nat) : Bool :=
    if closed then low * down ≤ k * grid && k * grid ≤ high * down
    else low * down < k * grid && k * grid < high * down
  let below := num * down - k * grid
  let above := (k + 1) * grid - num * down
  match inside k, inside (k + 1) with
  | true, true => some (if below < above ∨ (below = above ∧ k % 2 = 0) then k else k + 1)
  | true, false => some k
  | false, true => some (k + 1)
  | false, false => none

/-- Reads the digits of `k · 10 ^ unit`, without its trailing zeros. -/
def scientific (k : Nat) (unit : Int) : Scientific :=
  let ds := digits k
  let kept := (ds.reverse.dropWhile (· == '0')).reverse
  ⟨kept, unit + ds.length - 1⟩

/-- The shortest decimal that reads back to `mantissa · 2 ^ exponent`, which is positive. -/
def shortest (mantissa : Nat) (exponent : Int) : Scientific :=
  -- All in quarters of the last binary place, to have the ends of the interval whole.
  let (up, down) := scaling (exponent - 2)
  let num := 4 * mantissa * up
  let low := (if mantissa = Nat.pow 2 52 ∧ -1074 < exponent then 4 * mantissa - 1 else 4 * mantissa - 2) * up
  let high := (4 * mantissa + 2) * up
  let power := leadingPower num down
  let found := (List.range 17).findSome? fun (n : Nat) =>
    (neighbour? num low high down (mantissa % 2 == 0) (power - n)).map fun k => (k, power - (n : Int))
  match found with
  | some (k, unit) => scientific k unit
  | none => scientific (roundDiv num down) 0

/-- How decimals are laid out. -/
structure DecimalStyle where
  /-- The least power of ten at the leading digit that is written without an exponent. -/
  plainFrom : Int
  /-- The least power of ten above it that is written with an exponent again. -/
  plainBelow : Int
  /-- The fewest digits of an exponent. -/
  exponentWidth : Nat

/-- Printed numbers have an exponent of at least two digits from `1e16` on and below `1e-4`. -/
def printed : DecimalStyle := ⟨-4, 16, 2⟩

/-- Digits filled up with zeros on the left. -/
def padded (width : Nat) (ds : List Char) : List Char := List.replicate (width - ds.length) '0' ++ ds

/-- Lays a decimal out: with an exponent that has a sign, or with a point and a digit on both of its
sides. -/
def DecimalStyle.layout (style : DecimalStyle) (s : Scientific) : List Char :=
  if style.plainFrom ≤ s.exponent ∧ s.exponent < style.plainBelow then
    if s.exponent < 0 then
      '0' :: '.' :: List.replicate (-s.exponent - 1).toNat '0' ++ s.digits
    else
      let n := s.exponent.toNat + 1
      let whole := s.digits.take n ++ List.replicate (n - s.digits.length) '0'
      let fraction := s.digits.drop n
      whole ++ '.' :: (if fraction.isEmpty then ['0'] else fraction)
  else
    let fraction := s.digits.drop 1
    s.digits.take 1 ++ (if fraction.isEmpty then [] else '.' :: fraction) ++ 'e' ::
      (if s.exponent < 0 then '-' else '+') :: padded style.exponentWidth (digits s.exponent.natAbs)

/-- A floating-point number as it is printed. -/
def showFloat (x : Float) : String :=
  match view x with
  | .nan => "nan"
  | .infinite negative => if negative then "-inf" else "inf"
  | .finite negative mantissa exponent =>
    let text := if mantissa = 0 then ['0', '.', '0'] else printed.layout (shortest mantissa exponent)
    String.ofList (if negative then '-' :: text else text)

end Camlet.Number
