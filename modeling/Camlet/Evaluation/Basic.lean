import Camlet.Evaluation.Arithmetic
import Camlet.Evaluation.Fault
import Camlet.Evaluation.Value

/-
  The evaluation of programs. Declarations are evaluated one after the other, each on its own: one that
  fails has a fault for its result, and evaluation goes on with the next.

  Two limits bound the depth of evaluation. An application may stand inside at most `limit` others; and
  the nesting of rules, whatever they are, may use up a number of frames: two for each rule, three for
  the operand of an operator and for the body of an applied function.

  Each kind of node has a rule. It is given the evaluation of nodes below it, at the cost of two frames
  and at the cost of three, and that of function bodies as arguments; `eval` ties the knot. An
  evaluation has the environment for its state: a declaration inside an expression adds to the
  environment that it is evaluated in, and that outlives a failure.
-/

namespace Camlet

/-- Why an evaluation does not come to a value. -/
inductive Failure where
  | fault (fault : Located RuntimeFault)
  | outOfFrames
  | tooLarge
  | crash (crash : Crash)

/-- An evaluation in an environment. -/
abbrev Eval (α : Type) := EStateM Failure Env α

namespace Eval

/-- Fails with a fault at a place. -/
def fail {α : Type} (pos : Pos) (f : RuntimeFault) : Eval α := throw (.fault ⟨pos, f⟩)

/-- Evaluates in another environment, which is given up afterwards. -/
def within {α : Type} (env : Env) (x : Eval α) : Eval α := fun s =>
  match x env with
  | .ok a _ => .ok a s
  | .error e _ => .error e s

/-- Binds a name in the environment. -/
def bind (name : String) (v : Value) : Eval Unit := modify fun env => env.set name v

/-- The value that a number is. -/
def ofNum : Num → Value
  | .int n => .int n
  | .float x => .float x

/-- The number that a value is, if it is one. -/
def number? : Value → Option Num
  | .int n => some (.int n)
  | .float x => some (.float x)
  | _ => none

/-- The result of an operation on numbers for the node at a place. -/
def computed (pos : Pos) (operator : String) : Except NumFault Num → Eval Value
  | .ok r => return ofNum r
  | .error .byZero => fail pos (.byZero (operator == "mod"))
  | .error .tooLarge => throw .tooLarge
  | .error .noRemainder => throw (.crash .noRemainder)
  | .error .unknownOperator => fail pos (.unknownOperator operator)

variable (near far body : Node → Eval Value)

/-- The number that an operand of an operator evaluates to. -/
def operand (operator : String) (n : Node) : Eval Num := do
  let v ← far n
  match number? v with
  | some a => return a
  | none => fail n.pos (.numericOperand operator v.kind)

/-- A declaration of a value. -/
def letDecl (name : String) (value : Node) : Eval Value := do
  let v ← near value
  bind name v
  return v

/-- A declaration of a function: its first parameter makes the closure, the others are parameters of the
function that it gives. -/
def funDecl (pos : Pos) (name : String) (params : List String) (body : Node) (recursive : Bool) :
    Eval Value := do
  match params with
  | [] => throw (.crash .noParameters)
  | p :: ps =>
    let v := Value.closure (if recursive then some name else none) p (.curry pos ps body) (← get)
    bind name v
    return v

/-- The value of a local recursive binding, which must be a function. -/
def recursiveValue (name : String) : Node → Eval Value
  | .lambda _ p b => return .closure (some name) p b (← get)
  | n => throw (.crash (.missingAttribute n.className "param"))

/-- A local binding. -/
def letIn (name : String) (value body : Node) (recursive : Bool) : Eval Value := do
  let v ← if recursive then recursiveValue name value else near value
  within ((← get).set name v) (near body)

/-- A conditional: any number but zero is true. -/
def cond (condition thenBranch elseBranch : Node) : Eval Value := do
  let c ← near condition
  match number? c with
  | none => fail condition.pos (.condition c.kind)
  | some a => if a.isZero then near elseBranch else near thenBranch

/-- The first case that matches a value. A wildcard and a name match all values, other patterns none. -/
def cases (pos : Pos) (v : Value) : List (Node × Node) → Eval Value
  | [] =>
    match v.render with
    | .ok shown => fail pos (.noMatch shown)
    | .error c => throw (.crash c)
  | (.wildcard _, body) :: _ => near body
  | (.bind _ name, body) :: _ => do within ((← get).set name v) (near body)
  | _ :: rest => cases pos v rest

/-- A case distinction. -/
def matching (pos : Pos) (scrutinee : Node) (cs : List (Node × Node)) : Eval Value := do
  let v ← near scrutinee
  cases near pos v cs

/-- The environment in which the body of a closure is evaluated. -/
def callEnv (closure : Value) (self : Option String) (param : String) (captured : Env)
    (argument : Value) : Env :=
  let own := match self with
    | some name => captured.set name closure
    | none => captured
  own.set param argument

/-- An application at a place, inside `depth` others. -/
def apply (limit : Int) (depth : Nat) (pos : Pos) (callee argument : Node) : Eval Value := do
  let f ← near callee
  match f with
  | .closure self param code captured =>
    let a ← near argument
    if limit ≤ depth then fail pos (.applicationDepth limit)
    else within (callEnv f self param captured a) (body code)
  | v => fail pos (.notFunction v.kind)

/-- A binary operator. The second operand of `&&` and `||` is evaluated only if it decides. -/
def binary (pos : Pos) (operator : String) (left right : Node) : Eval Value := do
  let a ← operand far operator left
  if operator = "&&" then
    if a.isZero then return ofNum (.ofBool false)
    else return ofNum (.ofBool !(← operand far operator right).isZero)
  else if operator = "||" then
    if a.isZero then return ofNum (.ofBool !(← operand far operator right).isZero)
    else return ofNum (.ofBool true)
  else
    let b ← operand far operator right
    computed pos operator (a.operate operator b)

/-- A sign. -/
def unary (pos : Pos) (operator : String) (n : Node) : Eval Value := do
  computed pos operator ((← operand far operator n).negate operator)

/-- A name. -/
def ident (pos : Pos) (name : String) : Eval Value := do
  match (← get).get? name with
  | some v => return v
  | none => fail pos (.undefined name)

/-- The rule of each kind of node. Programs and patterns have none. -/
def rule (limit : Int) (depth : Nat) : Node → Eval Value
  | .letDecl _ name value => letDecl near name value
  | .funDecl pos name ps code recursive => funDecl pos name ps code recursive
  | .exprStmt _ e => near e
  | .letIn _ name value code recursive => letIn near name value code recursive
  | .cond _ c t e => cond near c t e
  | .matching pos s cs => matching near pos s cs
  | .lambda _ p code => return .closure none p code (← get)
  | .apply pos f a => apply near body limit depth pos f a
  | .binary pos o l r => binary far pos o l r
  | .unary pos o e => unary far pos o e
  | .intLit _ n => return .int n
  | .floatLit _ x => return .float x
  | .stringLit _ s => return .string s
  | .charLit _ s => return .char s
  | .ident pos name => ident pos name
  | .wildcard pos => fail pos (.notEvaluable (Node.wildcard pos).className)
  | .bind pos name => fail pos (.notEvaluable (Node.bind pos name).className)
  | .program pos code => fail pos (.notEvaluable (Node.program pos code).className)

end Eval

/-- The value of a node inside `depth` applications, with a number of frames left. -/
def eval (limit : Int) : (frames depth : Nat) → Node → Eval Value
  | 0, _, _ => throw .outOfFrames
  | 1, _, _ => throw .outOfFrames
  | 2, _, _ => throw .outOfFrames
  | n + 3, depth, node =>
    Eval.rule (eval limit (n + 1) depth) (eval limit n depth) (eval limit n (depth + 1)) limit depth
      node

/-- The result of a declaration that has a value. -/
structure Result where
  name : String
  value : Value

/-- The line that reports a result. -/
def Result.text (r : Result) : Except Crash String := do
  return r.name ++ " : " ++ r.value.kind.name ++ " = " ++ (← r.value.render)

/-- What a declaration came to. -/
abbrev Outcome := Except (Located RuntimeFault) Result

namespace Outcome

/-- What a declaration came to whose evaluation ended in the way given. Only one without a fault of its
own is reported under its name, which it must have. -/
def ofRun (d : Node) : Except Failure Value → Except Crash Outcome
  | .error (.fault f) => .ok (.error f)
  | .error (.crash c) => .error c
  | .error .outOfFrames => named fun name => .error ⟨d.pos, .stackOverflow name⟩
  | .error .tooLarge => named fun name => .error ⟨d.pos, .tooLarge name⟩
  | .ok v => named fun name => .ok ⟨name, v⟩
where
  /-- What is reported under the name of the declaration. -/
  named (report : String → Outcome) : Except Crash Outcome :=
    match d.name? with
    | some name => .ok (report name)
    | none => .error (.missingAttribute d.className "name")

/-- The fault of a declaration that has one. -/
def fault? : Outcome → Option (Located RuntimeFault)
  | .error f => some f
  | .ok _ => none

/-- The result of a declaration that has one. -/
def result? : Outcome → Option Result
  | .error _ => none
  | .ok r => some r

end Outcome

/-- Evaluates declarations with a number of frames for each: what they came to, in order, and the
environment after them. -/
def evaluateWithin (frames : Nat) (limit : Int) : List Node → Env → Except Crash (List Outcome × Env)
  | [], env => .ok ([], env)
  | d :: ds, env => do
    let (run, env) : Except Failure Value × Env := match eval limit frames 0 d env with
      | .ok v env => (.ok v, env)
      | .error e env => (.error e, env)
    let o ← Outcome.ofRun d run
    let (os, env) ← evaluateWithin frames limit ds env
    return (o :: os, env)

/-- The limit of nested applications unless another is asked for. -/
def defaultLimit : Int := 1000

/-- The frames of an evaluation under a limit of nested applications: ten for each application, and a
thousand besides, of which a few are in use when it starts. -/
def frameBudget (limit : Int) : Nat := (990 + 10 * limit).toNat

/-- Evaluates declarations under a limit of nested applications, which must leave a number of frames that
can be counted in 32 bits. -/
def evaluate (limit : Int) (body : List Node) (env : Env) : Except Crash (List Outcome × Env) :=
  let frames := 1000 + 10 * limit
  if frames < -Int.pow 2 31 ∨ Int.pow 2 31 ≤ frames then .error .limitOutOfRange
  else if frames < 1 then .error .limitTooLow
  else evaluateWithin (frameBudget limit) limit body env

end Camlet
