import Camlet.Proofs.BindingTypes
import Camlet.Proofs.Kinds
import Camlet.Proofs.Printing
import Camlet.Proofs.Relocation

/-
  The values of the two forms of a binding. What is bound has the same value in both but for places: a
  chain of functions is itself the closure where it is local, and at the top it is taken apart and built
  again from the parameters of the declaration. Places do not matter to evaluation, so the body has the
  same value; the local form takes more frames, of which it may run out where the other does not.
-/

namespace Camlet

open Stateful

/-! ## Trees and values without their places -/

namespace Node

variable (f : Pos → Pos)

mutual

theorem unplaced_moved : ∀ e : Node, (e.moved f).unplaced = e.unplaced
  | wildcard _ | bind .. | intLit .. | floatLit .. | stringLit .. | charLit .. | ident .. => rfl
  | program _ ds => congrArg (program {}) (unplacedList_moved ds)
  | letDecl _ x v => congrArg (letDecl {} x) (unplaced_moved v)
  | funDecl _ x ps b r => congrArg (funDecl {} x ps · r) (unplaced_moved b)
  | exprStmt _ e => congrArg (exprStmt {}) (unplaced_moved e)
  | letIn _ x v b r => by simp only [moved, unplaced, unplaced_moved v, unplaced_moved b]
  | cond _ c t e => by simp only [moved, unplaced, unplaced_moved c, unplaced_moved t, unplaced_moved e]
  | matching _ s cs => by simp only [moved, unplaced, unplaced_moved s, unplacedCases_moved cs]
  | lambda _ p b => congrArg (lambda {} p) (unplaced_moved b)
  | apply _ g a => by simp only [moved, unplaced, unplaced_moved g, unplaced_moved a]
  | binary _ o l r => by simp only [moved, unplaced, unplaced_moved l, unplaced_moved r]
  | unary _ o e => congrArg (unary {} o) (unplaced_moved e)

theorem unplacedList_moved : ∀ ds : List Node, unplacedList (movedList f ds) = unplacedList ds
  | [] => rfl
  | d :: ds => by simp only [movedList, unplacedList, unplaced_moved d, unplacedList_moved ds]

theorem unplacedCases_moved : ∀ cs : List (Node × Node), unplacedCases (movedCases f cs) = unplacedCases cs
  | [] => rfl
  | (p, e) :: cs => by
    simp only [movedCases, unplacedCases, unplaced_moved p, unplaced_moved e, unplacedCases_moved cs]

end

mutual

/-- A tree without its places has them all at the same one. -/
theorem moved_nowhere : ∀ e : Node, e.moved (fun _ => {}) = e.unplaced
  | wildcard _ | bind .. | intLit .. | floatLit .. | stringLit .. | charLit .. | ident .. => rfl
  | program _ ds => congrArg (program {}) (movedList_nowhere ds)
  | letDecl _ x v => congrArg (letDecl {} x) (moved_nowhere v)
  | funDecl _ x ps b r => congrArg (funDecl {} x ps · r) (moved_nowhere b)
  | exprStmt _ e => congrArg (exprStmt {}) (moved_nowhere e)
  | letIn _ x v b r => by simp only [moved, unplaced, moved_nowhere v, moved_nowhere b]
  | cond _ c t e => by simp only [moved, unplaced, moved_nowhere c, moved_nowhere t, moved_nowhere e]
  | matching _ s cs => by simp only [moved, unplaced, moved_nowhere s, movedCases_nowhere cs]
  | lambda _ p b => congrArg (lambda {} p) (moved_nowhere b)
  | apply _ g a => by simp only [moved, unplaced, moved_nowhere g, moved_nowhere a]
  | binary _ o l r => by simp only [moved, unplaced, moved_nowhere l, moved_nowhere r]
  | unary _ o e => congrArg (unary {} o) (moved_nowhere e)

theorem movedList_nowhere : ∀ ds : List Node, movedList (fun _ => {}) ds = unplacedList ds
  | [] => rfl
  | d :: ds => by simp only [movedList, unplacedList, moved_nowhere d, movedList_nowhere ds]

theorem movedCases_nowhere : ∀ cs : List (Node × Node), movedCases (fun _ => {}) cs = unplacedCases cs
  | [] => rfl
  | (p, e) :: cs => by
    simp only [movedCases, unplacedCases, moved_nowhere p, moved_nowhere e, movedCases_nowhere cs]

end

end Node

namespace Value

/-- A value without the places in the bodies of its closures. -/
def unplaced (v : Value) : Value := v.moved fun _ => {}

/-- An environment of such values. -/
def unplacedEnv (env : Env) : Env := movedEnv (fun _ => {}) env

theorem unplaced_closure (self : Option String) (p : String) (b : Node) (captured : Env) :
    (closure self p b captured).unplaced = closure self p b.unplaced (unplacedEnv captured) :=
  congrArg (closure self p · (unplacedEnv captured)) (Node.moved_nowhere b)

variable {v w : Value}

theorem unplaced_kind (h : v.unplaced = w.unplaced) : v.kind = w.kind := by
  rw [← kind_moved (fun _ => {}) v, ← kind_moved (fun _ => {}) w]
  exact congrArg kind h

theorem unplaced_render (h : v.unplaced = w.unplaced) : v.render = w.render := by
  rw [← render_moved (fun _ => {}) v, ← render_moved (fun _ => {}) w]
  exact congrArg render h

end Value

section

variable {limit : Int} {n m depth : Nat} {e e' : Node} {env env' : Env} {v : Value}

/-- Nodes that differ in their places alone have values that do, in environments that do. -/
theorem eval_unplaced (he : e.unplaced = e'.unplaced) (henv : Value.unplacedEnv env = Value.unplacedEnv env')
    {env₁ : Env} (h : eval limit n depth e env = .ok v env₁) :
    ∃ w env₂, eval limit n depth e' env' = .ok w env₂ ∧ w.unplaced = v.unplaced := by
  have hmoved := eval_moved limit n depth (fun _ => {}) e env
  have hmoved' := eval_moved limit n depth (fun _ => {}) e' env'
  rw [Node.moved_nowhere, he, ← Value.unplacedEnv, henv] at hmoved
  rw [Node.moved_nowhere, ← Value.unplacedEnv, hmoved, h] at hmoved'
  cases heval : eval limit n depth e' env' with
  | ok w env₂ =>
    rw [heval] at hmoved'
    exact ⟨w, env₂, rfl, (EStateM.Result.ok.inj hmoved').1.symm⟩
  | error f env₂ =>
    rw [heval] at hmoved'
    cases hmoved'

/-- The value of an expression leaves the environment as it was. -/
theorem eval_env {env₁ : Env} (he : IsExpression e) (h : eval limit n depth e env = .ok v env₁) : env₁ = env := by
  have hfits : EnvFits .nothing env := backed_nothing
  have hkeeps := eval_fits he hfits limit n depth
  rw [Eval.Keeps, h] at hkeeps
  exact hkeeps.1

end

/-! ## The value of what is bound -/

theorem Curried.unplaced {ps : List String} {v e : Node} (h : Curried ps v e) (pos : Pos) :
    v.unplaced = (Node.curry pos ps e).unplaced := by
  induction h with
  | nil => rfl
  | cons _ p _ ih => exact congrArg (Node.lambda {} p) ih

/-- What is bound by a local binding. -/
def Eval.bound (near : Node → Eval Value) (r : Bool) (f : String) (v : Node) : Eval Value :=
  if r then recursiveValue f v else near v

section

variable {limit : Int} {n m : Nat} {pos : Pos} {r : Bool} {f : String} {v d : Node} {u w : Value} {env : Env}
  (hv : IsExpression v) (hd : Declares pos r f v d) (hle : m ≤ n + 1)

/-- A function is its own value, if there are frames for it. -/
theorem bound_lambda (r : Bool) (f : String) (p : Pos) (q : String) (b : Node) :
    Eval.bound (eval limit m 0) r f (.lambda p q b) [] =
        .ok (.closure (if r then some f else none) q b []) [] ∨
      ∃ env, Eval.bound (eval limit m 0) r f (.lambda p q b) [] = .error .outOfFrames env := by
  cases r with
  | true => exact .inl rfl
  | false =>
    match m with
    | 0 | 1 | 2 => exact .inr ⟨_, rfl⟩
    | m + 3 => exact .inl rfl

/-- The closures of a function in the two forms. -/
theorem unplaced_curried {q : String} {qs : List String} {b e : Node} (h : Curried qs b e) (pos : Pos) :
    (Value.closure (if r then some f else none) q b []).unplaced =
      (Value.closure (if r then some f else none) q (.curry pos qs e) []).unplaced := by
  rw [Value.unplaced_closure, Value.unplaced_closure, h.unplaced pos]

include hv hd hle

/-- What a local binding binds has the same value in a declaration, but for places. -/
theorem eval_declared (h : Eval.bound (eval limit m 0) r f v [] = .ok u env) :
    env = [] ∧ ∃ w, eval limit (n + 3) 0 d [] = .ok w [(f, w)] ∧ u.unplaced = w.unplaced := by
  cases hd with
  | value hr =>
    subst hr
    obtain rfl := eval_env hv h
    have hmore : eval limit (n + 1) 0 v [] = .ok u [] := (eval_outlasts limit hle 0 v).ok h
    exact ⟨rfl, u, bind_ok hmore _, rfl⟩
  | @function q qs e hchain =>
    cases hchain with
    | cons p _ hchain =>
      rcases bound_lambda r f p q _ with hok | ⟨env', hout⟩
      · obtain ⟨rfl, rfl⟩ := EStateM.Result.ok.inj (hok.symm.trans h)
        exact ⟨rfl, _, rfl, unplaced_curried hchain pos⟩
      · rw [hout] at h
        cases h

/-- What a declaration binds has the same value in a local binding, but for places, unless that runs out of
frames. -/
theorem eval_bound (h : eval limit (n + 3) 0 d [] = .ok w env) :
    env = [(f, w)] ∧
      ((∃ u, Eval.bound (eval limit m 0) r f v [] = .ok u [] ∧ u.unplaced = w.unplaced) ∨
        ∃ env', Eval.bound (eval limit m 0) r f v [] = .error .outOfFrames env') := by
  cases hd with
  | value hr =>
    subst hr
    obtain ⟨w', env₁, hx, hrest⟩ := bind_eq_ok.mp h
    obtain rfl := eval_env hv hx
    cases hrest
    refine ⟨rfl, ?_⟩
    rcases (eval_outlasts limit hle 0 v).ok_or hx with hok | hout
    · exact .inl ⟨w, hok, rfl⟩
    · exact .inr hout
  | @function q qs e hchain =>
    cases h
    refine ⟨rfl, ?_⟩
    cases hchain with
    | cons p _ hchain =>
      exact (bound_lambda r f p q _).imp_left fun hok => ⟨_, hok, unplaced_curried hchain pos⟩

end

/-! ## The value of the body -/

section

variable {limit : Int} {n frames : Nat} {p q : Pos} {r : Bool} {f : String} {v d b b' : Node} {u w : Value}
  {env env₁ : Env}

theorem Eval.letIn_eq (near : Node → Eval Value) :
    Eval.letIn near f v b r =
      Eval.bound near r f v >>= fun x => get >>= fun env => Eval.within (env.set f x) (near b) := by
  cases r <;> rfl

/-- A local binding has the value of its body, where the name has that of what is bound. -/
theorem eval_letIn_eq_ok :
    eval limit (n + 3) 0 (.letIn p f v b r) env = .ok u env₁ ↔
      ∃ x env₂, Eval.bound (eval limit (n + 1) 0) r f v env = .ok x env₁ ∧
        eval limit (n + 1) 0 b (env₁.set f x) = .ok u env₂ := by
  rw [eval, Eval.rule, Eval.letIn_eq, bind_eq_ok]
  simp only [get_bind, Eval.within]
  constructor
  · rintro ⟨x, env', hx, hbody⟩
    cases heval : eval limit (n + 1) 0 b (Bindings.set env' f x) with
    | ok y env₂ =>
      rw [heval] at hbody
      cases hbody
      exact ⟨x, env₂, hx, heval⟩
    | error e env₂ =>
      rw [heval] at hbody
      cases hbody
  · rintro ⟨x, env₂, hx, hbody⟩
    exact ⟨x, env₁, hx, by rw [hbody]⟩

/-- It runs out of frames where the evaluation of what is bound does, or that of its body. -/
theorem eval_letIn_outOfFrames
    (h : (∃ env', Eval.bound (eval limit (n + 1) 0) r f v env = .error .outOfFrames env') ∨
      ∃ x env' env₂, Eval.bound (eval limit (n + 1) 0) r f v env = .ok x env' ∧
        eval limit (n + 1) 0 b (env'.set f x) = .error .outOfFrames env₂) :
    ∃ env', eval limit (n + 3) 0 (.letIn p f v b r) env = .error .outOfFrames env' := by
  rw [eval, Eval.rule, Eval.letIn_eq]
  simp only [bind_eq_error, get_bind, Eval.within]
  rcases h with ⟨env', hx⟩ | ⟨x, env', env₂, hx, hbody⟩
  · exact ⟨env', .inl hx⟩
  · exact ⟨env', .inr ⟨x, env', hx, by rw [hbody]⟩⟩

variable (hv : IsExpression v) (hd : Declares p r f v d) (hsame : b.unplaced = b'.unplaced)

include hv hd hsame

/-- What has a value in the local form has it in the form at the top, but for places. -/
theorem eval_top_of_local (h : eval limit frames 0 (.exprStmt p (.letIn p f v b r)) [] = .ok u env) :
    ∃ x env₁ w env₂, eval limit frames 0 d [] = .ok x env₁ ∧
      eval limit frames 0 (.exprStmt q b') env₁ = .ok w env₂ ∧ w.unplaced = u.unplaced := by
  match frames with
  | 0 | 1 | 2 | 3 | 4 => cases h
  | n + 5 =>
    have hletIn : eval limit (n + 3) 0 (.letIn p f v b r) [] = .ok u env := h
    obtain ⟨x, env₂, hbound, hbody⟩ := eval_letIn_eq_ok.mp hletIn
    have hle : n + 1 ≤ (n + 2) + 1 := by omega
    obtain ⟨rfl, x', hdecl, hx⟩ := eval_declared hv hd hle hbound
    have henv : Value.unplacedEnv [(f, x)] = Value.unplacedEnv [(f, x')] := congrArg (fun y => [(f, y)]) hx
    obtain ⟨w, env₃, hw, hwu⟩ := eval_unplaced hsame henv ((eval_outlasts limit hle 0 b).ok hbody)
    exact ⟨x', _, w, env₃, hdecl, hw, hwu⟩

/-- What has a value at the top has it in the local form, but for places, unless that runs out of frames. -/
theorem eval_local_of_top (hdecl : eval limit frames 0 d [] = .ok w env)
    (hbody : eval limit frames 0 (.exprStmt q b') env = .ok u env₁) :
    (∃ x env₂, eval limit frames 0 (.exprStmt p (.letIn p f v b r)) [] = .ok x env₂ ∧
        x.unplaced = u.unplaced) ∨
      ∃ env₂, eval limit frames 0 (.exprStmt p (.letIn p f v b r)) [] = .error .outOfFrames env₂ := by
  match frames with
  | 0 | 1 | 2 => cases hdecl
  | 3 | 4 => exact .inr ⟨_, rfl⟩
  | n + 5 =>
    have hle : n + 1 ≤ (n + 2) + 1 := by omega
    have hstatement : eval limit (n + 5) 0 (.exprStmt p (.letIn p f v b r)) =
        eval limit (n + 3) 0 (.letIn p f v b r) := rfl
    rw [hstatement]
    obtain ⟨rfl, ⟨x, hx, hxw⟩ | hdeep⟩ := eval_bound hv hd hle hdecl
    · have henv : Value.unplacedEnv [(f, w)] = Value.unplacedEnv [(f, x)] :=
        congrArg (fun y => [(f, y)]) hxw.symm
      have hbody' : eval limit (n + 3) 0 b' [(f, w)] = .ok u env₁ := hbody
      obtain ⟨y, env₂, hy, hyu⟩ := eval_unplaced hsame.symm henv hbody'
      rcases (eval_outlasts limit hle 0 b).ok_or hy with hok | ⟨env₃, hdeep⟩
      · exact .inl ⟨y, [], eval_letIn_eq_ok.mpr ⟨x, env₂, hx, hok⟩, hyu⟩
      · exact .inr (eval_letIn_outOfFrames (.inr ⟨x, [], env₃, hx, hdeep⟩))
    · exact .inr (eval_letIn_outOfFrames (.inl hdeep))

end

end Camlet
