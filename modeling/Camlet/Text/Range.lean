/-
  Membership in a list of closed ranges of code points, the form in which the tables of character
  properties are kept.
-/

namespace Camlet.Text

/-- Whether `n` lies in one of the closed ranges `rs`. -/
def inRanges (rs : List (Nat × Nat)) (n : Nat) : Bool :=
  rs.any fun r => r.1 ≤ n && n ≤ r.2

end Camlet.Text
