import Camlet.Number.Decimal
import Camlet.Tree.Parser
import Camlet.Typing.Scope

/-
  The analysis of programs: every name must be declared, and the types of the parts of an expression
  must fit. Parameters and the names of patterns have unknown types, and an unknown type fits every
  other. A declaration is left at its first fault, but all declarations are analyzed, so that a program
  has at most one fault for each.

  Each kind of node has a rule, which is given the analysis of the nodes below it as an argument;
  `infer` ties the knot, with a limit to the depth of nesting. The state of an analysis, the open scopes
  and the warnings so far, outlives a fault.
-/

namespace Camlet

/-- Why the analysis of a declaration is left. -/
inductive Refusal where
  | fault (fault : Located TypeFault)
  | tooDeep
  | crash (crash : Crash)

/-- The state of an analysis: the open scopes, and the warnings found, the last first. -/
structure Context where
  scopes : Scopes
  warnings : List (Located Warning) := []

/-- A step of an analysis. -/
abbrev Check (α : Type) := EStateM Refusal Context α

namespace Check

/-- Leaves the declaration with a fault at a place. -/
def refuse {α : Type} (pos : Pos) (f : TypeFault) : Check α := throw (.fault ⟨pos, f⟩)

/-- Runs a step in a scope of its own, which is closed however the step ends. -/
def within {α : Type} (frame : Frame) (x : Check α) : Check α := fun c =>
  match x { c with scopes := frame :: c.scopes } with
  | .ok a c => .ok a { c with scopes := c.scopes.tail }
  | .error e c => .error e { c with scopes := c.scopes.tail }

/-- Declares a name for the node at a place. -/
def declare (pos : Pos) (name : String) (type : Typing) : Check Unit := do
  let c ← get
  match c.scopes.declare name type with
  | .ok s => set { c with scopes := s }
  | .error f => refuse pos f

/-- Sets the type of a name in the innermost scope. -/
def assign (name : String) (type : Typing) : Check Unit :=
  modify fun c => { c with scopes := c.scopes.assign name type }

/-- The type of a name used at a place. -/
def lookup (pos : Pos) (name : String) : Check Typing := do
  match (← get).scopes.lookup name with
  | .ok t => return t
  | .error f => refuse pos f

/-- Adds a warning at a place. -/
def warn (pos : Pos) (w : Warning) : Check Unit :=
  modify fun c => { c with warnings := ⟨pos, w⟩ :: c.warnings }

end Check

namespace Node

/-- The source text of a node, if it is simple enough to be marked in a report. -/
def snippet : Node → String
  | ident _ name => name
  | intLit _ n => Number.writeInt n
  | floatLit _ x => Number.showFloat x
  | _ => ""

/-- Whether a pattern matches every value. -/
def matchesAll : Node → Bool
  | wildcard _ | bind .. => true
  | _ => false

end Node

/-- The operators on truth values. -/
def logicalOperators : List String := ["&&", "||"]

/-- The operators on floating-point numbers alone. -/
def floatOperators : List String := ["+.", "-.", "*.", "/."]

/-- The operators that compare numbers. -/
def comparisonOperators : List String := ["<", ">", "<=", ">=", "==", "<>", "="]

/-- The operators that compute with numbers of either kind. -/
def arithmeticOperators : List String := ["+", "-", "*", "/", "mod"]

namespace Infer

open Check

variable (sub : Node → Check Typing)

/-- A declaration of a value. -/
def letDecl (pos : Pos) (name : String) (value : Node) : Check Typing := do
  let t ← sub value
  declare pos name t
  return t

/-- Declares the parameters of the function at a place. -/
def params (pos : Pos) : List String → Check Unit
  | [] => return
  | p :: ps => do
    declare pos p (some .unknown)
    params pos ps

/-- A declaration of a function. Its own name is known in its body alone until the body is analyzed. -/
def funDecl (pos : Pos) (name : String) (ps : List String) (body : Node) (recursive : Bool) :
    Check Typing := do
  let own : Frame := if recursive then [(name, some .anyFunction)] else []
  let result ← within own <| within [] do
    params pos ps
    sub body
  let t := ps.foldl (fun (t : Typing) _ => some t.function) result
  declare pos name t
  return t

/-- A local binding. -/
def letIn (pos : Pos) (name : String) (value body : Node) (recursive : Bool) : Check Typing :=
  within [] do
    if recursive then
      declare pos name (some .anyFunction)
      assign name (← sub value)
    else declare pos name (← sub value)
    sub body

/-- A conditional. -/
def cond (pos : Pos) (condition thenBranch elseBranch : Node) : Check Typing := do
  let c ← sub condition
  unless c.compatible (some .int) do refuse condition.pos (.condition condition.snippet c.name)
  let t ← sub thenBranch
  let e ← sub elseBranch
  unless t.compatible e do refuse pos (.branches t.name e.name)
  return t.unify e

/-- The type of cases, `before` that of the ones in front of them, and `all` the pattern among those
that matches everything. -/
def cases : (before : Typing) → (all : Option Node) → List (Node × Node) → Check Typing
  | before, _, [] => return before
  | before, all, (pattern, body) :: rest => do
    match all with
    | some p => warn pattern.pos (.unusedCase p.pos.line)
    | none => pure ()
    let t ← within [] do
      match pattern with
      | .bind pos name => declare pos name (some .unknown)
      | _ => pure ()
      sub body
    if before.isSome && !before.compatible t then refuse body.pos (.cases before.name t.name)
    let merged := if before.isSome then before.unify t else t
    cases merged (all <|> (if pattern.matchesAll then some pattern else none)) rest

/-- A case distinction. -/
def matching (scrutinee : Node) (cs : List (Node × Node)) : Check Typing := do
  let _ ← sub scrutinee
  cases sub none none cs

/-- A function. -/
def lambda (pos : Pos) (param : String) (body : Node) : Check Typing :=
  within [] do
    declare pos param (some .unknown)
    return some (← sub body).function

/-- An application. -/
def apply (pos : Pos) (callee argument : Node) : Check Typing := do
  let f ← sub callee
  let _ ← sub argument
  match f with
  | none => throw (.crash (.missingAttribute "NoneType" "name"))
  | some t =>
    if t.kind = .function then return some (t.returns?.getD .unknown)
    else if t.kind = .unknown then return some .unknown
    else refuse pos (.notFunction callee.snippet f.name)

/-- Refuses an operand of which `fits` does not hold. -/
def operand (fits : Typing → Bool) (fault : String → String → TypeFault) (n : Node) (t : Typing) :
    Check Unit := do
  unless fits t do refuse n.pos (fault n.snippet t.name)

/-- A binary operator. -/
def binary (pos : Pos) (operator : String) (left right : Node) : Check Typing := do
  let l ← sub left
  let r ← sub right
  if logicalOperators.contains operator then
    operand (·.compatible (some .int)) (.logicalOperand operator) left l
    operand (·.compatible (some .int)) (.logicalOperand operator) right r
    return some .int
  else if floatOperators.contains operator then
    operand (·.compatible (some .float)) (.floatOperand operator) left l
    operand (·.compatible (some .float)) (.floatOperand operator) right r
    return some .float
  else
    operand (·.isNumeric) (.numericOperand operator) left l
    operand (·.isNumeric) (.numericOperand operator) right r
    unless l.compatible r do refuse pos (.operands operator l.name r.name)
    if comparisonOperators.contains operator then return some .int
    else if arithmeticOperators.contains operator then
      return some (if l.isKind .float || r.isKind .float then .float else .int)
    else refuse pos (.unknownOperator operator)

/-- A sign. -/
def unary (pos : Pos) (operator : String) (operand : Node) : Check Typing := do
  let t ← sub operand
  if operator = "-." then
    unless t.compatible (some .float) do refuse pos (.floatSign operator t.name)
    return some .float
  else
    unless t.isNumeric do refuse pos (.numericSign operator t.name)
    return if t.isKind .unknown then some .int else t

/-- The rule of each kind of node. Programs and patterns have none. -/
def rule : Node → Check Typing
  | .letDecl pos name value => letDecl sub pos name value
  | .funDecl pos name ps body recursive => funDecl sub pos name ps body recursive
  | .exprStmt _ e => sub e
  | .letIn pos name value body recursive => letIn sub pos name value body recursive
  | .cond pos c t e => cond sub pos c t e
  | .matching _ s cs => matching sub s cs
  | .lambda pos p b => lambda sub pos p b
  | .apply pos f a => apply sub pos f a
  | .binary pos o l r => binary sub pos o l r
  | .unary pos o e => unary sub pos o e
  | .intLit .. => return some .int
  | .floatLit .. => return some .float
  | .stringLit .. => return some .string
  | .charLit .. => return some .char
  | .ident pos name => lookup pos name
  | .wildcard pos => refuse pos (.notAnalyzable (Node.wildcard pos).className)
  | .bind pos name => refuse pos (.notAnalyzable (Node.bind pos name).className)
  | .program pos body => refuse pos (.notAnalyzable (Node.program pos body).className)

end Infer

/-- The type of a node that is nested less than `depth` deep. -/
def infer : (depth : Nat) → Node → Check Typing
  | 0, _ => throw .tooDeep
  | depth + 1, n => Infer.rule (infer depth) n

/-- What came of the analysis of a program: the type of the last declaration that passed, the types of
all that did, by name and in order, the faults and the warnings. -/
structure Analysis where
  type : Typing := none
  bindings : List (String × Typing) := []
  errors : List (Located TypeFault) := []
  warnings : List (Located Warning) := []

/-- Whether no declaration was refused. -/
def Analysis.ok (a : Analysis) : Bool := a.errors.isEmpty

namespace Analysis

/-- Analyzes declarations one after the other: the names and types of those that pass, the faults of
those that do not, and the warnings, the last first. -/
def declarations (depth : Nat) :
    Context → List Node →
      Except Crash (List (String × Typing) × List (Located TypeFault) × List (Located Warning))
  | c, [] => .ok ([], [], c.warnings)
  | c, d :: ds =>
    match infer depth d c with
    | .ok t c =>
      match d.name? with
      | some name => do
        let (bs, fs, ws) ← declarations depth c ds
        return ((name, t) :: bs, fs, ws)
      | none => .error (.missingAttribute d.className "name")
    | .error (.fault f) c => do
      let (bs, fs, ws) ← declarations depth c ds
      return (bs, f :: fs, ws)
    | .error .tooDeep c => do
      let (bs, fs, ws) ← declarations depth c ds
      return (bs, ⟨d.pos, .tooDeep⟩ :: fs, ws)
    | .error (.crash e) _ => .error e

end Analysis

/-- Analyzes declarations in surroundings that declare the names of `seed`, with a limit to nesting. -/
def analyzeWithin (depth : Nat) (body : List Node) (seed : Frame) : Except Crash Analysis := do
  let (bs, fs, ws) ← Analysis.declarations depth ⟨.ofSeed seed, []⟩ body
  return ⟨(bs.getLast?).bind (·.2), bs, fs, ws.reverse⟩

/-- The nesting of expressions that is analyzed. -/
def analysisDepth : Nat := 490

/-- Analyzes declarations in surroundings that declare the names of `seed`. -/
def analyze (body : List Node) (seed : Frame) : Except Crash Analysis :=
  analyzeWithin analysisDepth body seed

end Camlet
