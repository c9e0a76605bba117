import Camlet.Crash
import Camlet.Text.Digit

/-
  Message templates: fixed text with slots for arguments. The stages write their templates directly as
  pieces. A template given as text is read by `Template.parse`: a pair of curly brackets is a slot, with
  a number in it for a certain argument or empty for the next one, and a doubled bracket is itself.
-/

namespace Camlet

/-- A piece of a template. -/
inductive Piece where
  | text (s : String)
  | slot (index : Nat)
  deriving DecidableEq, Repr

/-- Fixed text with slots for arguments. -/
abbrev Template := List Piece

namespace Template

/-- The message of a template and its arguments. A slot without an argument is left empty. -/
def fill (t : Template) (args : List String) : String :=
  String.join (t.map fun
    | .text s => s
    | .slot i => (args[i]?).getD "")

/-- How the slots seen so far were numbered: not at all, by themselves up to a count, or by hand. -/
inductive Numbering where
  | undecided
  | automatic (next : Nat)
  | manual

/-- The argument that a slot of the given name refers to, and the numbering from there on. -/
def slotIndex (numbering : Numbering) (name : List Char) : Except Crash (Nat × Numbering) :=
  if name.isEmpty then
    match numbering with
    | .undecided => .ok (0, .automatic 1)
    | .automatic n => .ok (n, .automatic (n + 1))
    | .manual => .error (.badTemplate
        "cannot switch from manual field specification to automatic field numbering")
  else
    match name.mapM Text.anyDigit? with
    | none => .error (.unknownSlot (String.ofList name))
    | some digits =>
      let index := digits.foldl (fun n d => 10 * n + d) 0
      if Nat.pow 2 63 ≤ index then .error (.badTemplate "Too many decimal digits in format string")
      else
        match numbering with
        | .automatic _ => .error (.badTemplate
            "cannot switch from automatic field numbering to manual field specification")
        | _ => .ok (index, .manual)

/-- Puts a character in front of a template. -/
def consChar (c : Char) : Template → Template
  | .text s :: t => .text (String.singleton c ++ s) :: t
  | t => .text (String.singleton c) :: t

/-- Reads a template that has `count` arguments. Each step consumes a character at least. -/
def parseFrom (count : Nat) : Nat → Numbering → List Char → Except Crash Template
  | _, _, [] => .ok []
  | 0, _, _ :: _ => .ok []
  | fuel + 1, numbering, '\x7b' :: '\x7b' :: cs => do
    return consChar '\x7b' (← parseFrom count fuel numbering cs)
  | fuel + 1, numbering, '\x7d' :: '\x7d' :: cs => do
    return consChar '\x7d' (← parseFrom count fuel numbering cs)
  | _ + 1, _, '\x7d' :: _ => .error (.badTemplate "Single '\x7d' encountered in format string")
  | _ + 1, _, ['\x7b'] => .error (.badTemplate "Single '\x7b' encountered in format string")
  | fuel + 1, numbering, '\x7b' :: cs => do
    match cs.dropWhile fun c => c ≠ '\x7b' ∧ c ≠ '\x7d' with
    | [] => .error (.badTemplate "expected '\x7d' before end of string")
    | '\x7b' :: _ => .error (.badTemplate "unexpected '\x7b' in field name")
    | _ :: rest =>
      let (index, numbering) ← slotIndex numbering (cs.takeWhile (· ≠ '\x7d'))
      if index < count then return .slot index :: (← parseFrom count fuel numbering rest)
      else .error (.missingArgument index)
  | fuel + 1, numbering, c :: cs => do
    return consChar c (← parseFrom count fuel numbering cs)

/-- Reads a template that has `count` arguments. -/
def parse (s : String) (count : Nat) : Except Crash Template :=
  parseFrom count s.toList.length .undecided s.toList

end Template

end Camlet
