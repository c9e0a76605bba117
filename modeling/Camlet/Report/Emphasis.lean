/-
  Emphasis in reports. A report has pieces in bold and pieces that are marked for what is wrong with them. How
  these are shown is up to where the report goes, so it is a parameter here.
-/

namespace Camlet

/-- What a piece of a report is marked for. -/
inductive Mark where
  | error
  | warning
  deriving DecidableEq, Repr

/-- How pieces of a report are shown that are in bold, and those that are marked. -/
structure Emphasis where
  bold : String → String
  marked : Mark → String → String

namespace Emphasis

/-- Every piece is shown as it is, as in a file. -/
structure Plain (e : Emphasis) : Prop where
  bold : ∀ s, e.bold s = s
  marked : ∀ mark s, e.marked mark s = s

/-- Shows every piece as it is. -/
def plain : Emphasis := ⟨id, fun _ => id⟩

theorem plain_isPlain : plain.Plain := ⟨fun _ => rfl, fun _ _ => rfl⟩

end Emphasis

end Camlet
