import Camlet.Pos

/-
  Syntax trees. A program is a list of declarations; an expression is built from literals, names,
  operators, applications, functions of one parameter, local bindings, conditionals and case
  distinctions; a pattern is a name or a wildcard. The parser builds trees of this shape only, but a
  tree given from outside may hold any node anywhere, so all nodes have one type.
-/

namespace Camlet

/-- A node of a syntax tree, with the place of its first token. -/
inductive Node where
  | wildcard (pos : Pos)
  | bind (pos : Pos) (name : String)
  | program (pos : Pos) (body : List Node)
  | letDecl (pos : Pos) (name : String) (value : Node)
  | funDecl (pos : Pos) (name : String) (params : List String) (body : Node) (recursive : Bool)
  | exprStmt (pos : Pos) (expr : Node)
  | letIn (pos : Pos) (name : String) (value body : Node) (recursive : Bool)
  | cond (pos : Pos) (condition thenBranch elseBranch : Node)
  | matching (pos : Pos) (scrutinee : Node) (cases : List (Node × Node))
  | lambda (pos : Pos) (param : String) (body : Node)
  | apply (pos : Pos) (callee argument : Node)
  | binary (pos : Pos) (operator : String) (left right : Node)
  | unary (pos : Pos) (operator : String) (operand : Node)
  | intLit (pos : Pos) (value : Int)
  | floatLit (pos : Pos) (value : Float)
  | stringLit (pos : Pos) (value : String)
  | charLit (pos : Pos) (value : String)
  | ident (pos : Pos) (name : String)
  deriving Inhabited

namespace Node

/-- The place of a node. -/
def pos : Node → Pos
  | wildcard p | bind p _ | program p _ | letDecl p _ _ | funDecl p _ _ _ _ | exprStmt p _
  | letIn p _ _ _ _ | cond p _ _ _ | matching p _ _ | lambda p _ _ | apply p _ _ | binary p _ _ _
  | unary p _ _ | intLit p _ | floatLit p _ | stringLit p _ | charLit p _ | ident p _ => p

/-- The name of the class of a node. -/
def className : Node → String
  | wildcard .. => "Wildcard"
  | bind .. => "Bind"
  | program .. => "Program"
  | letDecl .. => "LetDecl"
  | funDecl .. => "FunDecl"
  | exprStmt .. => "ExprStmt"
  | letIn .. => "LetIn"
  | cond .. => "If"
  | matching .. => "Match"
  | lambda .. => "Lambda"
  | apply .. => "Apply"
  | binary .. => "BinaryOp"
  | unary .. => "UnaryOp"
  | intLit .. => "IntLiteral"
  | floatLit .. => "FloatLiteral"
  | stringLit .. => "StringLiteral"
  | charLit .. => "CharLiteral"
  | ident .. => "Identifier"

/-- The name under which a node is declared and its result reported: that of an expression on its own
is `-`. Nodes without a name have none. -/
def name? : Node → Option String
  | bind _ n | letDecl _ n _ | funDecl _ n _ _ _ | letIn _ n _ _ _ | ident _ n => some n
  | exprStmt .. => some "-"
  | _ => none

/-- A function of several parameters as nested functions of one, all at the same place. -/
def curry (pos : Pos) (params : List String) (body : Node) : Node :=
  params.foldr (fun p b => lambda pos p b) body

/-- The parameters of nested functions, and the body of the innermost. -/
def uncurry : Node → List String × Node
  | lambda _ p b => let (ps, e) := uncurry b; (p :: ps, e)
  | e => ([], e)

/-- Whether a node is a function. -/
def isLambda : Node → Bool
  | lambda .. => true
  | _ => false

/-- A field of a node: an attribute, or nodes. -/
inductive Field where
  | text (value : String)
  | texts (values : List String)
  | flag (value : Bool)
  | int (value : Int)
  | float (value : Float)
  | nodes (children : List Node)

/-- The fields of a node with their names, in order. -/
def fields : Node → List (String × Field)
  | wildcard _ => []
  | bind _ n => [("name", .text n)]
  | program _ body => [("body", .nodes body)]
  | letDecl _ n v => [("name", .text n), ("value", .nodes [v])]
  | funDecl _ n ps b r =>
    [("name", .text n), ("params", .texts ps), ("body", .nodes [b]), ("recursive", .flag r)]
  | exprStmt _ e => [("expr", .nodes [e])]
  | letIn _ n v b r =>
    [("name", .text n), ("value", .nodes [v]), ("body", .nodes [b]), ("recursive", .flag r)]
  | cond _ c t e => [("condition", .nodes [c]), ("then_branch", .nodes [t]), ("else_branch", .nodes [e])]
  | matching _ s cs =>
    [("scrutinee", .nodes [s]), ("cases", .nodes (cs.flatMap fun c => [c.1, c.2]))]
  | lambda _ p b => [("param", .text p), ("body", .nodes [b])]
  | apply _ f a => [("callee", .nodes [f]), ("argument", .nodes [a])]
  | binary _ o l r => [("operator", .text o), ("left", .nodes [l]), ("right", .nodes [r])]
  | unary _ o e => [("operator", .text o), ("operand", .nodes [e])]
  | intLit _ n => [("value", .int n)]
  | floatLit _ x => [("value", .float x)]
  | stringLit _ s | charLit _ s => [("value", .text s)]
  | ident _ n => [("name", .text n)]

/-- The nodes right below a node, in order. -/
def children (n : Node) : List Node :=
  n.fields.flatMap fun
    | (_, .nodes ns) => ns
    | _ => []

end Node

end Camlet
