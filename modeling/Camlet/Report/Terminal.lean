import Camlet.Report.Emphasis

/-
  Reports at a terminal, where control sequences give emphasis. Elsewhere, or where colours are not wanted, reports
  are plain.
-/

namespace Camlet

/-- Whether reports are shown with control sequences. -/
structure Style where
  coloured : Bool

namespace Style

/-- A control sequence of the given number. -/
def control (n : String) : String := "\x1b[" ++ n ++ "m"

/-- The number of the colour of a mark: red or magenta. -/
def colour : Mark → String
  | .error => "31"
  | .warning => "35"

/-- Emphasis by control sequences: what is marked is in bold as well. -/
def sequences : Emphasis where
  bold s := control "1" ++ s ++ control "0"
  marked mark s := control "1" ++ control (colour mark) ++ s ++ control "0"

/-- The emphasis of a style. -/
def emphasis (style : Style) : Emphasis := if style.coloured then sequences else .plain

instance : Coe Style Emphasis := ⟨emphasis⟩

theorem emphasis_plain : (⟨false⟩ : Style).emphasis.Plain := Emphasis.plain_isPlain

end Style

end Camlet
