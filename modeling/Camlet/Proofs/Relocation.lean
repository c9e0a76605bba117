import Camlet.Proofs.Places
import Camlet.Proofs.Rewriting

/-
  Evaluation commutes with moving. A node that stands elsewhere, in an environment whose closures have their
  bodies elsewhere, comes to the same end elsewhere: to the moved value, or to the same failure, a fault of
  it at the moved place. Unlike likeness this is an equation, so it can be used in both directions, and also
  where many places become one.
-/

namespace Camlet

open Node (Rewriting)

/-! ## Moved values -/

namespace Value

mutual

/-- A value whose closures have their bodies at other places. -/
def moved (f : Pos → Pos) : Value → Value
  | int n => int n
  | float x => float x
  | string s => string s
  | char s => char s
  | closure self param body captured => closure self param (body.moved f) (movedEnv f captured)

/-- An environment of such values. -/
def movedEnv (f : Pos → Pos) : List (String × Value) → List (String × Value)
  | [] => []
  | (x, v) :: env => (x, v.moved f) :: movedEnv f env

end

variable (f : Pos → Pos)

@[simp] theorem kind_moved (v : Value) : (v.moved f).kind = v.kind := by
  cases v <;> rfl

@[simp] theorem render_moved (v : Value) : (v.moved f).render = v.render := by
  cases v <;> rfl

end Value

/-! ## Moving as rewriting -/

namespace Node

variable (f : Pos → Pos)

theorem matchesAll_moved (p : Node) : (p.moved f).matchesAll = p.matchesAll := by
  cases p <;> rfl

theorem chosen_movedCases (cs : List (Node × Node)) :
    chosen (movedCases f cs) = (chosen cs).map fun c => (c.1.moved f, c.2.moved f) := by
  induction cs with
  | nil => rfl
  | cons c cs ih =>
    obtain ⟨p, e⟩ := c
    simp only [chosen, movedCases, List.find?_cons, matchesAll_moved] at ih ⊢
    cases p.matchesAll with
    | true => rfl
    | false => exact ih

/-- Moving is a rewriting that drops nothing. -/
def moving : Rewriting where
  place := f
  tree := moved f
  cases := movedCases f
  body := movedList f
  tree_eq n := by cases n <;> rfl
  chosen_cases := chosen_movedCases f

mutual

theorem value_moving (v : Value) : (moving f).value v = v.moved f := by
  cases v with
  | int | float | string | char => rfl
  | closure self p b captured => exact congrArg (Value.closure self p (b.moved f)) (env_moving captured)

theorem env_moving (env : List (String × Value)) : (moving f).env env = Value.movedEnv f env := by
  cases env with
  | nil => rfl
  | cons e rest =>
    obtain ⟨x, v⟩ := e
    rw [Rewriting.env, Value.movedEnv, value_moving v, env_moving rest]

end

end Node

namespace Eval

/-- The end of an evaluation elsewhere, where its value becomes `g` of what it is. -/
def movedEnd {α β : Type} (f : Pos → Pos) (g : α → β) :
    EStateM.Result Failure Env α → EStateM.Result Failure Env β
  | .ok a env => .ok (g a) (Value.movedEnv f env)
  | .error e env => .error (e.moved f) (Value.movedEnv f env)

end Eval

/-- A node that stands elsewhere comes to the same end elsewhere. -/
theorem eval_moved (limit : Int) (frames depth : Nat) (f : Pos → Pos) (e : Node) (env : Env) :
    eval limit frames depth (e.moved f) (Value.movedEnv f env) =
      Eval.movedEnd f (Value.moved f) (eval limit frames depth e env) := by
  have h := eval_rewritten (Node.moving f) limit frames depth e env
  rw [Node.env_moving] at h
  refine h.trans ?_
  cases eval limit frames depth e env with
  | ok v env' => rw [Eval.rewrittenEnd, Eval.movedEnd, Node.value_moving, Node.env_moving]
  | error g env' => rw [Eval.rewrittenEnd, Eval.movedEnd, Node.env_moving, Node.moving]

end Camlet
