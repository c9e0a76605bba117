/-
  Places in a text. Lines and columns count from 1 in source text, but a place given from outside may
  be any pair of integers; line 0 means that the place is not known.
-/

namespace Camlet

/-- A place in a text: its line, and its column on that line. -/
structure Pos where
  line : Int := 0
  column : Int := 0
  deriving DecidableEq, Repr, Inhabited

namespace Pos

/-- The place of the first character of a text. -/
def first : Pos := ⟨1, 1⟩

/-- The place after a character that stands at `p`: only `\n` ends a line. -/
def step (p : Pos) (c : Char) : Pos :=
  if c = '\n' then ⟨p.line + 1, 1⟩ else ⟨p.line, p.column + 1⟩

/-- The place after a text that starts at `p`. -/
def after (p : Pos) (cs : List Char) : Pos := cs.foldl step p

@[simp] theorem after_nil (p : Pos) : p.after [] = p := rfl

@[simp] theorem after_cons (p : Pos) (c : Char) (cs : List Char) :
    p.after (c :: cs) = (p.step c).after cs := rfl

theorem after_append (p : Pos) (cs ds : List Char) : p.after (cs ++ ds) = (p.after cs).after ds := by
  simp [after]

end Pos

/-- A value together with the place it concerns. -/
structure Located (α : Type) where
  pos : Pos
  val : α
  deriving DecidableEq, Repr

end Camlet
