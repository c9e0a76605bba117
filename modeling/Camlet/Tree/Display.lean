import Camlet.Number.Decimal
import Camlet.Text.Quoted
import Camlet.Tree.Basic

/-
  Printed trees and the comparison of trees. A node is printed with its attributes in brackets and each
  node below it on lines of its own, indented by one step more:

    Lambda(param='x', nodes=[
        Identifier(name='x')
    ])

  Trees are compared without their places. Both go down to a limited depth only.
-/

namespace Camlet

namespace Node

/-- One step of indentation for each level. -/
def indentation (level : Int) : String :=
  String.ofList (List.replicate (4 * level.toNat) ' ')

/-- The text of a field that holds no nodes. -/
def Field.attribute? : Field → Option String
  | .text s => some (Text.quoted s)
  | .texts ss => some (Text.quotedTuple ss)
  | .flag b => some (if b then "True" else "False")
  | .int n => some (Number.writeInt n)
  | .float x => some (Number.showFloat x)
  | .nodes [] => some "()"
  | .nodes (_ :: _) => none

/-- The attributes of a node with their names, as printed. -/
def attributes (n : Node) : List String :=
  n.fields.filterMap fun (name, f) => f.attribute?.map fun text => name ++ "=" ++ text

/-- A node printed with the texts of the nodes below it. -/
def frame (level : Int) (n : Node) (below : List String) : String :=
  let attrs := String.intercalate ", " n.attributes
  let nodes :=
    if below.isEmpty then ""
    else (if n.attributes.isEmpty then "nodes=[\n" else ", nodes=[\n") ++
      String.intercalate ",\n" below ++ "\n" ++ indentation level ++ "]"
  indentation level ++ n.className ++ "(" ++ attrs ++ nodes ++ ")"

/-- A node printed at a level of indentation, if it is nested less than `depth` deep. -/
def displayWithin : (depth : Nat) → (level : Int) → Node → Option String
  | 0, _, _ => none
  | depth + 1, level, n => do
    let below ← n.children.mapM (displayWithin depth (level + 1))
    return frame level n below

/-- The deepest nesting that is printed. -/
def displayDepth : Nat := 985

/-- A node as it is printed at a level of indentation, if it is not nested too deeply. -/
def display? (level : Int) (n : Node) : Option String := displayWithin displayDepth level n

/-- Two lists agree as far as both reach, and are of the same length. The lengths are compared last. -/
def sameLists (same : Node → Node → Option Bool) : List Node → List Node → Option Bool
  | [], [] => some true
  | a :: as, b :: bs => do
    if ← same a b then sameLists same as bs else return false
  | _, _ => some false

/-- Two fields agree. -/
def sameField (same : Node → Node → Option Bool) : Field → Field → Option Bool
  | .text s, .text t => some (s == t)
  | .texts ss, .texts ts => some (ss == ts)
  | .flag a, .flag b => some (a == b)
  | .int m, .int n => some (m == n)
  | .float x, .float y => some (x == y)
  | .nodes as, .nodes bs => sameLists same as bs
  | _, _ => some false

/-- The fields of two nodes of one class agree, compared in order up to the first difference. -/
def sameFields (same : Node → Node → Option Bool) :
    List (String × Field) → List (String × Field) → Option Bool
  | (_, f) :: fs, (_, g) :: gs => do
    if ← sameField same f g then sameFields same fs gs else return false
  | _, _ => some true

/-- Whether two nodes agree in all but their places; nothing if that shows only at a level of nesting
beyond `depth`. -/
def sameWithin : (depth : Nat) → Node → Node → Option Bool
  | 0, _, _ => none
  | depth + 1, a, b =>
    if a.className = b.className then sameFields (sameWithin depth) a.fields b.fields
    else some false

/-- The deepest nesting at which trees are compared. -/
def sameDepth : Nat := 320

/-- Whether two nodes agree in all but their places, if they do not agree too deeply to tell. -/
def same? (a b : Node) : Option Bool := sameWithin sameDepth a b

end Node

end Camlet
