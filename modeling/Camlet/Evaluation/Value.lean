import Camlet.Bindings
import Camlet.Crash
import Camlet.Number.Decimal
import Camlet.Tree.Basic
import Camlet.Typing.Basic

/-
  Values. A function value is a closure: a parameter, a body, and the bindings that held where it was
  made, so that binding a name anew changes no closure. A recursive closure is bound in its own body as
  well, under the name it keeps for itself.
-/

namespace Camlet

/-- A value. -/
inductive Value where
  | int (n : Int)
  | float (x : Float)
  | string (s : String)
  /-- A character, which is a text of length one where a source text writes it. -/
  | char (s : String)
  | closure (self : Option String) (param : String) (body : Node) (captured : List (String × Value))
  deriving Inhabited

/-- Names bound to values. -/
abbrev Env := Bindings Value

namespace Value

/-- The kind of a value. -/
def kind : Value → Kind
  | int _ => .int
  | float _ => .float
  | string _ => .string
  | char _ => .char
  | closure .. => .function

/-- A character as it stands between the given quotes of a printed value. -/
def escapeChar (quote c : Char) : List Char :=
  if c = '\n' then ['\\', 'n']
  else if c = '\t' then ['\\', 't']
  else if c = '\r' then ['\\', 'r']
  else if c = '\\' then ['\\', '\\']
  else if c = quote then ['\\', quote]
  else [c]

/-- A text between quotes, as a printed value. -/
def enquote (quote : Char) (s : String) : String :=
  String.ofList (quote :: s.toList.flatMap (escapeChar quote) ++ [quote])

/-- A value as it is printed, unless it is a whole number of too many digits. -/
def render : Value → Except Crash String
  | int n =>
    match Number.showInt? n with
    | some s => .ok s
    | none => .error .digitLimit
  | float x => .ok (Number.showFloat x)
  | string s => .ok (enquote '"' s)
  | char s => .ok (enquote '\'' s)
  | closure .. => .ok "<fun>"

/-- The names that are bound in the body of a closure without being its parameter, in order. -/
def capturedNames : Value → List String
  | v@(closure self _ _ captured) =>
    match self with
    | some name => Bindings.names (Bindings.set captured name v)
    | none => Bindings.names captured
  | _ => []

end Value

end Camlet
