import Camlet.Number.Binary

/-
  Numbers and their operators. Whole numbers are unbounded. Where a whole number meets a floating-point
  number it is rounded to one, which fails if it is too large for that; comparisons do not round.
-/

namespace Camlet

/-- A number. -/
inductive Num where
  | int (n : Int)
  | float (x : Float)

/-- Why an operation on numbers has no result. -/
inductive NumFault where
  | byZero
  | tooLarge
  | noRemainder
  | unknownOperator
  deriving DecidableEq, Repr

namespace Num

/-- A truth value as a number. -/
def ofBool (b : Bool) : Num := .int (if b then 1 else 0)

/-- Whether a number counts as false. -/
def isZero : Num → Bool
  | int n => n == 0
  | float x => x == 0.0

/-- How two numbers compare; `none` if one of them is not a number. -/
def compare? : Num → Num → Option Ordering
  | int m, int n => some (compare m n)
  | int m, float y => Number.compareInt? m y
  | float x, int n => (Number.compareInt? n x).map Ordering.swap
  | float x, float y => Number.compareFloat? x y

/-- The number in floating point. -/
def toFloat : Num → Except NumFault Float
  | int n =>
    match Number.ofInt? n with
    | some x => .ok x
    | none => .error .tooLarge
  | float x => .ok x

/-- An operation in floating point. -/
def floating (op : Float → Float → Float) (a b : Num) : Except NumFault Num := do
  return .float (op (← a.toFloat) (← b.toFloat))

/-- An operation on whole numbers if both are, and otherwise in floating point. -/
def mixed (whole : Int → Int → Int) (op : Float → Float → Float) : Num → Num → Except NumFault Num
  | int m, int n => .ok (.int (whole m n))
  | a, b => floating op a b

/-- The remainder, with the sign of the first number; the second is not zero. -/
def remainder : Num → Num → Except NumFault Num
  | int m, int n => .ok (.int (m.tmod n))
  | a, b => do
    match Number.remainder? (← a.toFloat) (← b.toFloat) with
    | some r => return .float r
    | none => .error .noRemainder

/-- What a comparison operator says of an order; `none` if it is no comparison. -/
def comparison? (operator : String) (o : Option Ordering) : Option Bool :=
  match operator with
  | "<" => some (o == some .lt)
  | ">" => some (o == some .gt)
  | "<=" => some (o == some .lt || o == some .eq)
  | ">=" => some (o == some .gt || o == some .eq)
  | "=" | "==" => some (o == some .eq)
  | "<>" => some (o != some .eq)
  | _ => none

/-- The operators that need a second number other than zero. -/
def divide (operator : String) (a b : Num) : Except NumFault Num :=
  if b.isZero then .error .byZero
  else
    match operator with
    | "/" => mixed Int.fdiv (· / ·) a b
    | "/." => floating (· / ·) a b
    | "mod" => remainder a b
    | _ => .error .unknownOperator

/-- A binary operator that needs both of its operands. -/
def operate (operator : String) (a b : Num) : Except NumFault Num :=
  match comparison? operator (a.compare? b) with
  | some r => .ok (ofBool r)
  | none =>
    match operator with
    | "+" => mixed (· + ·) (· + ·) a b
    | "-" => mixed (· - ·) (· - ·) a b
    | "*" => mixed (· * ·) (· * ·) a b
    | "+." => floating (· + ·) a b
    | "-." => floating (· - ·) a b
    | "*." => floating (· * ·) a b
    | _ => divide operator a b

/-- A sign: `-.` gives a floating-point number, any other sign the opposite number of the same kind. -/
def negate (operator : String) (a : Num) : Except NumFault Num :=
  if operator = "-." then do return .float (-(← a.toFloat))
  else
    match a with
    | int n => .ok (.int (-n))
    | float x => .ok (.float (-x))

end Num

end Camlet
