/-
  Floating-point numbers as exact binary fractions. `view` takes a number apart into a sign, a whole
  mantissa and a power of two; `ofRatio` rounds a fraction to the nearest number, of two equally near
  ones to that with the even mantissa. Comparison with whole numbers and the remainder are exact.
-/

namespace Camlet.Number

/-- What a floating-point number stands for: not a number, an infinity, or `± mantissa · 2 ^ exponent`. -/
inductive View where
  | nan
  | infinite (negative : Bool)
  | finite (negative : Bool) (mantissa : Nat) (exponent : Int)
  deriving DecidableEq, Repr

/-- Takes a floating-point number apart. -/
def view (x : Float) : View :=
  let bits : Nat := x.toBits.toNat
  let negative := bits / Nat.pow 2 63 == 1
  let scale : Nat := bits / Nat.pow 2 52 % Nat.pow 2 11
  let fraction : Nat := bits % Nat.pow 2 52
  if scale = 2047 then (if fraction = 0 then .infinite negative else .nan)
  else if scale = 0 then .finite negative fraction (-1074)
  else .finite negative (Nat.pow 2 52 + fraction) ((scale : Int) - 1075)

/-- The quotient `num / den` rounded to the nearest whole number, a half to the even neighbour. -/
def roundDiv (num den : Nat) : Nat :=
  let q := num / den
  let r := num % den
  if 2 * r < den then q
  else if den < 2 * r then q + 1
  else if q % 2 = 0 then q else q + 1

/-- Powers of two with the exponent's sign given by place: a factor of the numerator and one of the
denominator whose quotient is `2 ^ e`. -/
def scaling (e : Int) : Nat × Nat :=
  if 0 ≤ e then (Nat.pow 2 e.toNat, 1) else (1, Nat.pow 2 (-e).toNat)

/-- The exponent at which the mantissa of `num / den` has 53 binary digits, or the least exponent if
that is larger. Both numbers are positive. -/
def exponentFor (num den : Nat) : Int :=
  let e : Int := (num.log2 : Int) - den.log2 - 52
  let (up, down) := scaling e
  let e := if num * down < den * up * Nat.pow 2 52 then e - 1 else e
  max e (-1074)

/-- The bits of the infinities without their sign. -/
def infinityBits : Nat := 2047 * Nat.pow 2 52

/-- The bits of the number nearest to `num / den`, which is not negative; a value beyond all numbers
gives infinity. -/
def ratioBits (num den : Nat) : Nat :=
  if num = 0 then 0
  else
    let e := exponentFor num den
    let (up, down) := scaling e
    min infinityBits ((e + 1074).toNat * Nat.pow 2 52 + roundDiv (num * down) (den * up))

/-- The number with the given sign and the given bits below the sign. -/
def ofBits (negative : Bool) (bits : Nat) : Float :=
  Float.ofBits (UInt64.ofNat (if negative then Nat.pow 2 63 + bits else bits))

/-- The number nearest to `± num / den`. -/
def ofRatio (negative : Bool) (num den : Nat) : Float := ofBits negative (ratioBits num den)

/-- The number nearest to a whole number, if one is not infinite. -/
def ofInt? (n : Int) : Option Float :=
  let bits := ratioBits n.natAbs 1
  if bits < infinityBits then some (ofBits (n < 0) bits) else none

/-- The positive or negative infinity. -/
def infinity (negative : Bool) : Float := ofBits negative infinityBits

/-- The value that is not a number. -/
def nan : Float := Float.ofBits 0x7ff8000000000000

/-- How a whole number compares with a floating-point number, with no rounding; `none` if that is not a
number. -/
def compareInt? (n : Int) (x : Float) : Option Ordering :=
  match view x with
  | .nan => none
  | .infinite negative => some (if negative then .gt else .lt)
  | .finite negative mantissa exponent =>
    let (up, down) := scaling exponent
    let m : Int := if negative then -(mantissa : Int) else mantissa
    some (compare (n * down) (m * up))

/-- How two floating-point numbers compare; `none` if one is not a number. -/
def compareFloat? (x y : Float) : Option Ordering :=
  if x < y then some .lt
  else if x == y then some .eq
  else if y < x then some .gt
  else none

/-- The remainder of `x` by `y` with the sign of `x`, exact; `none` where there is no such number: for
an infinite `x` or a zero `y`, unless the other is not a number. -/
def remainder? (x y : Float) : Option Float :=
  match view x, view y with
  | .nan, _ => some nan
  | _, .nan => some nan
  | .infinite _, _ => none
  | .finite .., .infinite _ => some x
  | .finite negative m e, .finite _ m' e' =>
    if m' = 0 then none
    else
      let low := min e e'
      let (up, down) := scaling low
      let rest := (m * Nat.pow 2 (e - low).toNat) % (m' * Nat.pow 2 (e' - low).toNat)
      some (ofRatio negative (rest * up) down)

end Camlet.Number
