import Camlet.Evaluation.Basic
import Camlet.Proofs.Stateful
import Camlet.Typing.Analysis

/-
  Rewriting under evaluation. A rewriting moves the nodes of a tree to other places and leaves everything else
  as it is, but that it may drop cases of which none is ever chosen. A rewritten node, in an environment whose
  closures are rewritten, comes to the same end: to the rewritten value, or to the same failure, a fault of it
  at the other place. This is an equation, so it can be used in both directions, and also where the rewriting
  takes different trees to the same one.
-/

namespace Camlet

open Stateful

namespace Node

/-- A node at another place, with other nodes below it, and other cases or declarations if it has any. -/
def rebuilt (place : Pos → Pos) (tree : Node → Node) (cases : List (Node × Node) → List (Node × Node))
    (body : List Node → List Node) : Node → Node
  | wildcard p => wildcard (place p)
  | bind p x => bind (place p) x
  | program p ds => program (place p) (body ds)
  | letDecl p x v => letDecl (place p) x (tree v)
  | funDecl p x ps b r => funDecl (place p) x ps (tree b) r
  | exprStmt p e => exprStmt (place p) (tree e)
  | letIn p x v b r => letIn (place p) x (tree v) (tree b) r
  | cond p c t e => cond (place p) (tree c) (tree t) (tree e)
  | matching p s cs => matching (place p) (tree s) (cases cs)
  | lambda p x b => lambda (place p) x (tree b)
  | apply p g a => apply (place p) (tree g) (tree a)
  | binary p o l r => binary (place p) o (tree l) (tree r)
  | unary p o e => unary (place p) o (tree e)
  | intLit p n => intLit (place p) n
  | floatLit p x => floatLit (place p) x
  | stringLit p s => stringLit (place p) s
  | charLit p s => charLit (place p) s
  | ident p x => ident (place p) x

/-- The case that is chosen, whatever the value is: the first whose pattern matches everything. -/
def chosen (cs : List (Node × Node)) : Option (Node × Node) := cs.find? (·.1.matchesAll)

/-- A rewriting of trees. It rebuilds each node from what it makes of the nodes below, and keeps the case that
is chosen. -/
structure Rewriting where
  place : Pos → Pos
  tree : Node → Node
  cases : List (Node × Node) → List (Node × Node)
  body : List Node → List Node
  tree_eq : ∀ n, tree n = n.rebuilt place tree cases body
  chosen_cases : ∀ cs, chosen (cases cs) = (chosen cs).map fun c => (tree c.1, tree c.2)

namespace Rewriting

variable (r : Rewriting)

@[simp] theorem pos_tree (n : Node) : (r.tree n).pos = r.place n.pos := by
  rw [r.tree_eq]
  cases n <;> rfl

@[simp] theorem className_tree (n : Node) : (r.tree n).className = n.className := by
  rw [r.tree_eq]
  cases n <;> rfl

@[simp] theorem name?_tree (n : Node) : (r.tree n).name? = n.name? := by
  rw [r.tree_eq]
  cases n <;> rfl

theorem tree_lambda (p : Pos) (x : String) (b : Node) :
    r.tree (.lambda p x b) = .lambda (r.place p) x (r.tree b) := r.tree_eq _

theorem tree_curry (p : Pos) (ps : List String) (b : Node) :
    r.tree (curry p ps b) = curry (r.place p) ps (r.tree b) := by
  induction ps with
  | nil => rfl
  | cons x ps ih => exact (r.tree_lambda p x _).trans (congrArg (lambda (r.place p) x) ih)

/-! ## Rewritten values -/

mutual

/-- A value whose closures have their bodies rewritten. -/
def value : Value → Value
  | .int n => .int n
  | .float x => .float x
  | .string s => .string s
  | .char s => .char s
  | .closure self param body captured => .closure self param (r.tree body) (env captured)

/-- An environment of such values. -/
def env : List (String × Value) → List (String × Value)
  | [] => []
  | (x, v) :: rest => (x, value v) :: env rest

end

@[simp] theorem kind_value (v : Value) : (r.value v).kind = v.kind := by
  cases v <;> rfl

@[simp] theorem render_value (v : Value) : (r.value v).render = v.render := by
  cases v <;> rfl

@[simp] theorem number?_value (v : Value) : Eval.number? (r.value v) = Eval.number? v := by
  cases v <;> rfl

@[simp] theorem value_ofNum (a : Num) : r.value (Eval.ofNum a) = Eval.ofNum a := by
  cases a <;> rfl

theorem get?_env (env : Env) (x : String) : Bindings.get? (r.env env) x = (env.get? x).map r.value := by
  induction env with
  | nil => rfl
  | cons e env ih =>
    obtain ⟨y, v⟩ := e
    simp only [Rewriting.env, Bindings.get?]
    split
    · rfl
    · exact ih

theorem env_callEnv (v : Value) (self : Option String) (param : String) (captured : Env) (a : Value) :
    r.env (Eval.callEnv v self param captured a) =
      Eval.callEnv (r.value v) self param (r.env captured) (r.value a) := by
  cases self <;> rfl

end Rewriting

end Node

open Node (Rewriting)

/-- A failure with its fault, if it is one, at another place. -/
def Failure.moved (f : Pos → Pos) : Failure → Failure
  | .fault r => .fault ⟨f r.pos, r.val⟩
  | .outOfFrames => .outOfFrames
  | .tooLarge => .tooLarge
  | .crash c => .crash c

namespace Eval

/-! ## Steps of evaluation -/

section

variable {α β γ δ : Type} (r : Rewriting) {g : α → β} {g' : γ → δ}

/-- The end of an evaluation after rewriting, where its value becomes `g` of what it is. -/
def rewrittenEnd (g : α → β) : EStateM.Result Failure Env α → EStateM.Result Failure Env β
  | .ok a env => .ok (g a) (r.env env)
  | .error e env => .error (e.moved r.place) (r.env env)

/-- The second step does after rewriting what the first does. -/
def Commutes (g : α → β) (x : Eval α) (y : Eval β) : Prop := ∀ env, y (r.env env) = rewrittenEnd r g (x env)

theorem commutes_pure (a : α) : Commutes r g (pure a) (pure (g a)) := fun _ => rfl

theorem commutes_throw (e : Failure) : Commutes r g (throw e) (throw (e.moved r.place)) := fun _ => rfl

theorem commutes_fail (pos : Pos) (f : RuntimeFault) : Commutes r g (fail pos f) (fail (r.place pos) f) :=
  fun _ => rfl

variable {r}

theorem commutes_get {k : Env → Eval α} {l : Env → Eval β} (h : ∀ env, Commutes r g (k env) (l (r.env env))) :
    Commutes r g (get >>= k) (get >>= l) :=
  fun env => h env env

theorem Commutes.bind {x : Eval α} {y : Eval β} {k : α → Eval γ} {l : β → Eval δ} (h : Commutes r g x y)
    (hk : ∀ a, Commutes r g' (k a) (l (g a))) : Commutes r g' (x >>= k) (y >>= l) := by
  intro env
  rw [bind_run, bind_run, h env]
  cases x env with
  | ok a env' => exact hk a env'
  | error e env' => rfl

theorem commutes_within {x : Eval α} {y : Eval β} (h : Commutes r g x y) (env : Env) :
    Commutes r g (within env x) (within (r.env env) y) := by
  intro s
  unfold within
  rw [h env]
  cases x env <;> rfl

theorem commutes_bind (x : String) (v : Value) : Commutes r id (Eval.bind x v) (Eval.bind x (r.value v)) :=
  fun _ => rfl

end

/-! ## One lemma for each rule -/

/-- Rewritten nodes are evaluated to rewritten values. -/
abbrev Respects (r : Rewriting) (eval : Node → Eval Value) : Prop :=
  ∀ e, Commutes r r.value (eval e) (eval (r.tree e))

section

variable {r : Rewriting} {near far body : Node → Eval Value} (pos : Pos)

theorem commutes_operand (hfar : Respects r far) (o : String) (n : Node) :
    Commutes r id (operand far o n) (operand far o (r.tree n)) := by
  refine (hfar n).bind fun v => ?_
  simp only [Rewriting.number?_value, Rewriting.kind_value, Rewriting.pos_tree]
  cases number? v with
  | some a => exact commutes_pure r a
  | none => exact commutes_fail r _ _

theorem commutes_number (a : Num) : Commutes r r.value (pure (ofNum a)) (pure (ofNum a)) := by
  have h := commutes_pure (g := r.value) r (ofNum a)
  rwa [Rewriting.value_ofNum] at h

theorem commutes_computed (o : String) (res : Except NumFault Num) :
    Commutes r r.value (computed pos o res) (computed (r.place pos) o res) := by
  cases res with
  | ok a => exact commutes_number a
  | error e =>
    cases e with
    | byZero | unknownOperator => exact commutes_fail r _ _
    | tooLarge | noRemainder => exact commutes_throw r _

theorem commutes_letDecl (hnear : Respects r near) (x : String) (v : Node) :
    Commutes r r.value (letDecl near x v) (letDecl near x (r.tree v)) :=
  (hnear v).bind fun w => (commutes_bind x w).bind fun _ => commutes_pure r w

theorem commutes_funDecl (x : String) (ps : List String) (b : Node) (recursive : Bool) :
    Commutes r r.value (funDecl pos x ps b recursive) (funDecl (r.place pos) x ps (r.tree b) recursive) := by
  cases ps with
  | nil => exact commutes_throw r _
  | cons p ps =>
    refine commutes_get fun env => ?_
    rw [← r.tree_curry]
    exact (commutes_bind x (.closure _ p (.curry pos ps b) env)).bind fun _ => commutes_pure r _

theorem commutes_recursiveValue (x : String) (v : Node) :
    Commutes r r.value (recursiveValue x v) (recursiveValue x (r.tree v)) := by
  rw [r.tree_eq]
  cases v with
  | lambda q p b => exact commutes_get fun env => commutes_pure r (Value.closure (some x) p b env)
  | _ => exact commutes_throw r _

/-- A body is evaluated where one name more is bound. -/
theorem commutes_scoped (hnear : Respects r near) (x : String) (v : Value) (b : Node) :
    Commutes r r.value (get >>= fun env => within (Bindings.set env x v) (near b))
      (get >>= fun env => within (Bindings.set env x (r.value v)) (near (r.tree b))) :=
  commutes_get fun env => commutes_within (hnear b) (Bindings.set env x v)

theorem commutes_letIn (hnear : Respects r near) (x : String) (v b : Node) (recursive : Bool) :
    Commutes r r.value (letIn near x v b recursive) (letIn near x (r.tree v) (r.tree b) recursive) := by
  cases recursive with
  | false => exact (hnear v).bind fun w => commutes_scoped hnear x w b
  | true => exact (commutes_recursiveValue x v).bind fun w => commutes_scoped hnear x w b

theorem commutes_cond (hnear : Respects r near) (c t e : Node) :
    Commutes r r.value (Eval.cond near c t e) (Eval.cond near (r.tree c) (r.tree t) (r.tree e)) := by
  refine (hnear c).bind fun v => ?_
  simp only [Rewriting.number?_value, Rewriting.kind_value, Rewriting.pos_tree]
  cases number? v with
  | none => exact commutes_fail r _ _
  | some a =>
    dsimp only
    split
    · exact hnear e
    · exact hnear t

/-- Cases come to what the chosen one comes to, or fail if there is none. -/
theorem cases_chosen (v : Value) (cs : List (Node × Node)) :
    cases near pos v cs = cases near pos v (Node.chosen cs).toList := by
  induction cs with
  | nil => rfl
  | cons c cs ih =>
    obtain ⟨p, e⟩ := c
    cases p with
    | wildcard | bind => rfl
    | _ => exact ih

theorem commutes_cases (hnear : Respects r near) (v : Value) (cs : List (Node × Node)) :
    Commutes r r.value (cases near pos v cs) (cases near (r.place pos) (r.value v) (r.cases cs)) := by
  rw [cases_chosen pos v cs, cases_chosen _ _ (r.cases cs), r.chosen_cases]
  cases hchosen : Node.chosen cs with
  | none =>
    simp only [Option.map_none, Option.toList_none, Eval.cases, Rewriting.render_value]
    cases v.render with
    | ok shown => exact commutes_fail r _ _
    | error c => exact commutes_throw r _
  | some c =>
    obtain ⟨p, e⟩ := c
    have hp : p.matchesAll = true := (List.find?_eq_some_iff_append.mp hchosen).1
    simp only [Option.map_some, Option.toList_some, r.tree_eq p]
    cases p with
    | wildcard => exact hnear e
    | bind _ x => exact commutes_scoped hnear x v e
    | _ => cases hp

theorem commutes_apply (hnear : Respects r near) (hbody : Respects r body) (limit : Int) (depth : Nat)
    (g a : Node) :
    Commutes r r.value (apply near body limit depth pos g a)
      (apply near body limit depth (r.place pos) (r.tree g) (r.tree a)) := by
  refine (hnear g).bind fun v => ?_
  cases v with
  | closure self p code captured =>
    refine (hnear a).bind fun u => ?_
    split
    · exact commutes_fail r _ _
    · have hcode := commutes_within (hbody code) (callEnv (.closure self p code captured) self p captured u)
      rwa [r.env_callEnv] at hcode
  | int | float | string | char => exact commutes_fail r _ _

theorem commutes_binary (hfar : Respects r far) (o : String) (m n : Node) :
    Commutes r r.value (binary far pos o m n) (binary far (r.place pos) o (r.tree m) (r.tree n)) := by
  have hright := commutes_operand hfar o n
  refine (commutes_operand hfar o m).bind fun a => ?_
  have hlogical : Commutes r r.value
      (operand far o n >>= fun b => pure (ofNum (.ofBool !b.isZero)))
      (operand far o (r.tree n) >>= fun b => pure (ofNum (.ofBool !b.isZero))) :=
    hright.bind fun b => commutes_number _
  dsimp only [id]
  split
  · split
    · exact commutes_number _
    · exact hlogical
  · split
    · split
      · exact hlogical
      · exact commutes_number _
    · exact hright.bind fun b => commutes_computed pos o _

theorem commutes_unary (hfar : Respects r far) (o : String) (n : Node) :
    Commutes r r.value (unary far pos o n) (unary far (r.place pos) o (r.tree n)) :=
  (commutes_operand hfar o n).bind fun _ => commutes_computed pos o _

theorem commutes_ident (x : String) : Commutes r r.value (ident pos x) (ident (r.place pos) x) := by
  refine commutes_get fun env => ?_
  rw [r.get?_env]
  cases Bindings.get? env x with
  | none => exact commutes_fail r _ _
  | some v => exact commutes_pure r v

end

end Eval

/-- A rewritten node comes to the rewritten end. -/
theorem eval_rewritten (r : Rewriting) (limit : Int) (frames depth : Nat) :
    Eval.Respects r (eval limit frames depth) := by
  -- On the frames that are left, as the body of a closure is no part of the node.
  induction frames using Nat.strongRecOn generalizing depth with
  | ind frames ih =>
    intro e
    match frames with
    | 0 | 1 | 2 => exact Eval.commutes_throw r _
    | n + 3 =>
      have hnear : Eval.Respects r (eval limit (n + 1) depth) := ih (n + 1) (by omega) depth
      have hfar : Eval.Respects r (eval limit n depth) := ih n (by omega) depth
      have hbody : Eval.Respects r (eval limit n (depth + 1)) := ih n (by omega) (depth + 1)
      rw [r.tree_eq]
      cases e with
      | wildcard | bind | program => exact Eval.commutes_fail r _ _
      | letDecl pos x v => exact Eval.commutes_letDecl hnear x v
      | funDecl pos x ps b recursive => exact Eval.commutes_funDecl pos x ps b recursive
      | exprStmt pos e => exact hnear e
      | letIn pos x v b recursive => exact Eval.commutes_letIn hnear x v b recursive
      | cond pos c t e => exact Eval.commutes_cond hnear c t e
      | matching pos s cs => exact (hnear s).bind fun v => Eval.commutes_cases pos hnear v cs
      | lambda pos p b => exact Eval.commutes_get fun env => Eval.commutes_pure r (Value.closure none p b env)
      | apply pos g a => exact Eval.commutes_apply pos hnear hbody limit depth g a
      | binary pos o m n => exact Eval.commutes_binary pos hfar o m n
      | unary pos o n => exact Eval.commutes_unary pos hfar o n
      | intLit pos n => exact Eval.commutes_pure r (Value.int n)
      | floatLit pos x => exact Eval.commutes_pure r (Value.float x)
      | stringLit pos s => exact Eval.commutes_pure r (Value.string s)
      | charLit pos s => exact Eval.commutes_pure r (Value.char s)
      | ident pos x => exact Eval.commutes_ident pos x

end Camlet
