/-
  Kinds of values and types of expressions. A type says of which kind the value of an expression is, as
  far as that is known, and of a function also what applying it gives. There are no booleans: a
  condition is an `Int`. Types are compared by their kinds alone.
-/

namespace Camlet

/-- The kinds of values, `unknown` where nothing is known. A type given from outside may name any kind. -/
inductive Kind where
  | int
  | float
  | string
  | char
  | function
  | unknown
  | named (name : String)
  deriving DecidableEq, Repr, Inhabited

namespace Kind

/-- The name of a kind in messages and results. -/
def name : Kind → String
  | int => "Int"
  | float => "Float"
  | string => "String"
  | char => "Char"
  | function => "Function"
  | unknown => "Unknown"
  | named s => s

/-- The kind of a given name. -/
def ofName (s : String) : Kind :=
  ([int, float, string, char, function, unknown].find? (·.name == s)).getD (named s)

end Kind

/-- A type: the kind of the value, and the kinds that applying it gives, again and again, as far as
they are known. -/
structure Ty where
  kind : Kind
  results : List Kind := []
  deriving DecidableEq, Repr, Inhabited

namespace Ty

def int : Ty := ⟨.int, []⟩
def float : Ty := ⟨.float, []⟩
def string : Ty := ⟨.string, []⟩
def char : Ty := ⟨.char, []⟩
def unknown : Ty := ⟨.unknown, []⟩

/-- The type of functions that give `result`. -/
def function (result : Ty) : Ty := ⟨.function, result.kind :: result.results⟩

/-- The type of functions of which nothing more is known. -/
def anyFunction : Ty := function unknown

/-- What applying a value of the type gives, if the type says so. -/
def returns? (t : Ty) : Option Ty :=
  match t.results with
  | [] => none
  | k :: ks => some ⟨k, ks⟩

end Ty

/-- The type of an expression, which an empty case distinction does not have. -/
abbrev Typing := Option Ty

namespace Typing

/-- The name of a type in messages. -/
def name : Typing → String
  | some t => t.kind.name
  | none => "None"

/-- Whether an expression has the given kind for its type. -/
def isKind (t : Typing) (k : Kind) : Bool := t.map (·.kind) == some k

/-- Types are the same if their kinds are. -/
def same (a b : Typing) : Bool := a.map (·.kind) == b.map (·.kind)

/-- Whether two expressions could be of the same type. -/
def compatible (a b : Typing) : Bool := a.isKind .unknown || b.isKind .unknown || a.same b

/-- The more informative of two compatible types. -/
def unify (a b : Typing) : Typing := if a.isKind .unknown then b else a

/-- Whether an expression could be a number. -/
def isNumeric (t : Typing) : Bool := t.isKind .int || t.isKind .float || t.isKind .unknown

/-- The type of functions that give values of the type. -/
def function : Typing → Ty
  | some t => .function t
  | none => ⟨.function, []⟩

end Typing

end Camlet
