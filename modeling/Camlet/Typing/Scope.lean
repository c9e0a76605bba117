import Camlet.Bindings
import Camlet.Pos
import Camlet.Typing.Fault

/-
  Scopes: a stack of frames in which names are declared. A declaration goes to the innermost frame, where
  a name may be declared once; it hides the same name further out. The name `_` is never declared.
-/

namespace Camlet

/-- The names declared in one scope, with their types. -/
abbrev Frame := Bindings Typing

/-- The frames that are open, the innermost first. -/
abbrev Scopes := List Frame

namespace Scopes

/-- The scopes of a program whose surroundings declare the names of `seed`. -/
def ofSeed (seed : Frame) : Scopes := if seed.isEmpty then [[]] else [[], seed]

/-- The type of a name in the innermost frame that declares it. -/
def lookup? : Scopes → String → Option Typing
  | [], _ => none
  | f :: fs, name =>
    match f.get? name with
    | some t => some t
    | none => lookup? fs name

/-- Sets the type of a name in the innermost frame, whether it is declared there or not. -/
def assign (s : Scopes) (name : String) (type : Typing) : Scopes :=
  match s with
  | [] => [[(name, type)]]
  | f :: fs => f.set name type :: fs

/-- Declares a name in the innermost frame. -/
def declare (s : Scopes) (name : String) (type : Typing) : Except TypeFault Scopes :=
  if name = "_" then .ok s
  else if (s.headD []).has name then .error (.alreadyDeclared name)
  else .ok (s.assign name type)

/-- The type of a name, which must be declared. -/
def lookup (s : Scopes) (name : String) : Except TypeFault Typing :=
  match s.lookup? name with
  | some t => .ok t
  | none => .error (.undeclared name)

end Scopes

end Camlet
