import Mathlib.Logic.Relation
import Camlet.Proofs.Floats
import Camlet.Proofs.Resolution

/-
  Which evaluations an evaluation consists of, and how it fails. The evaluation of a node calls for those
  of nodes below it and, at an application, for that of the body of the function. A failure is one that
  is reported for the declaration, unless it is that of a remainder without a value: a failure arises at
  one point, and passes unchanged to every point that calls for it.

  So a declaration crashes if and only if its evaluation reaches a remainder without a value. This holds
  of trees that were read, in environments of values that such trees give.
-/

namespace Camlet

open Eval Stateful

/-- A fault of evaluation that a program can have which was read. -/
def RuntimeFault.Expected : RuntimeFault → Prop
  | .notEvaluable _ | .noMatch _ | .unknownOperator _ => False
  | _ => True

/-- A failure that is reported as a fault of the declaration. -/
def Failure.Reported : Failure → Prop
  | .fault f => f.val.Expected
  | .crash _ => False
  | .outOfFrames | .tooLarge => True

/-- Numbers without a remainder: an infinity, and a number other than zero that floating point has. -/
def Num.LackRemainder (a b : Num) : Prop :=
  a.IsInfinite ∧ b.isZero = false ∧ ¬ b.IsNaN ∧ b.Converts

/-! ## Operators -/

section

variable {o : String} {a b : Num} {f : NumFault}

theorem remainder_error (h : Num.remainder a b = .error f) : f ≠ .unknownOperator := by
  unfold Num.remainder at h
  split at h
  · cases h
  · cases ha : a.toFloat with
    | error g =>
      rw [ha] at h
      cases h
      exact Num.toFloat_error ha ▸ nofun
    | ok x =>
      cases hb : b.toFloat with
      | error g =>
        rw [ha, hb] at h
        cases h
        exact Num.toFloat_error hb ▸ nofun
      | ok y =>
        simp only [ha, hb, Bind.bind, Except.bind] at h
        split at h <;> cases h
        exact nofun

theorem guarded_error {r : Except NumFault Num} (hr : r = .error f → f ≠ .unknownOperator)
    (h : (if b.isZero then .error .byZero else r) = .error f) : f ≠ .unknownOperator := by
  split at h
  · cases h
    exact nofun
  · exact hr h

/-- An operator of the grammar that needs both operands is never unknown. -/
theorem operate_error (ho : o ∈ operatorNames) (hand : o ≠ "&&") (hor : o ≠ "||")
    (h : a.operate o b = .error f) : f ≠ .unknownOperator := by
  have hmixed : ∀ {whole op}, Num.mixed whole op a b = .error f → f ≠ .unknownOperator :=
    fun h => Num.mixed_error h ▸ nofun
  have hfloating : ∀ {op}, Num.floating op a b = .error f → f ≠ .unknownOperator :=
    fun h => Num.floating_error h ▸ nofun
  have hknown := operatorNames_known o ho
  simp only [logicalOperators, floatOperators, comparisonOperators, arithmeticOperators, List.mem_cons,
    List.not_mem_nil, or_false] at hknown
  rcases hknown with (rfl | rfl) | (rfl | rfl | rfl | rfl) |
    (rfl | rfl | rfl | rfl | rfl | rfl | rfl) | rfl | rfl | rfl | rfl | rfl
  · exact absurd rfl hand
  · exact absurd rfl hor
  · exact hfloating h
  · exact hfloating h
  · exact hfloating h
  · exact guarded_error hfloating h
  iterate 7 cases h
  · exact hmixed h
  · exact hmixed h
  · exact hmixed h
  · exact guarded_error hmixed h
  · exact guarded_error remainder_error h

theorem negate_error (h : a.negate o = .error f) : f = .tooLarge := by
  unfold Num.negate at h
  split at h
  · cases ha : a.toFloat with
    | error g =>
      rw [ha] at h
      cases h
      exact Num.toFloat_error ha
    | ok x =>
      rw [ha] at h
      cases h
  · split at h <;> cases h

end

/-! ## Values that programs come to -/

/-- A value that trees come to which were read: the bodies of its closures are expressions. -/
abbrev Made : Value → Prop := Respects fun _ => True

/-- An environment of such values. -/
abbrev EnvMade : Env → Prop := EnvRespects fun _ => True

/-- An expression leaves the environment as it was, and its value is made like those there. -/
theorem eval_ok_made {limit : Int} {frames depth : Nat} {e : Node} {env env' : Env} {v : Value}
    (he : IsExpression e) (henv : EnvMade env) (h : eval limit frames depth e env = .ok v env') :
    env' = env ∧ Made v := by
  have hkeeps := eval_respects limit frames depth he henv fun _ _ => .inr trivial
  rw [Keeps, h] at hkeeps
  exact hkeeps

/-! ## Points of an evaluation -/

/-- An evaluation of a node in an environment, inside `depth` applications and with a number of frames
left. -/
structure Point where
  frames : Nat
  depth : Nat
  env : Env
  node : Node

namespace Point

variable {limit : Int}

/-- The evaluation comes to a failure. -/
def Fails (limit : Int) (p : Point) (f : Failure) : Prop :=
  ∃ env', eval limit p.frames p.depth p.node p.env = .error f env'

/-- The evaluations that an evaluation of a tree that was read calls for, as far as it gets. -/
inductive Calls (limit : Int) : Point → Point → Prop
  | letDecl {n depth : Nat} {env : Env} {pos : Pos} {x : String} {v : Node} :
    Calls limit ⟨n + 3, depth, env, .letDecl pos x v⟩ ⟨n + 1, depth, env, v⟩
  | exprStmt {n depth : Nat} {env : Env} {pos : Pos} {e : Node} :
    Calls limit ⟨n + 3, depth, env, .exprStmt pos e⟩ ⟨n + 1, depth, env, e⟩
  | letValue {n depth : Nat} {env : Env} {pos : Pos} {x : String} {v b : Node} :
    Calls limit ⟨n + 3, depth, env, .letIn pos x v b false⟩ ⟨n + 1, depth, env, v⟩
  | letBody {n depth : Nat} {env env' : Env} {pos : Pos} {x : String} {v b : Node} {w : Value} :
    eval limit (n + 1) depth v env = .ok w env' →
    Calls limit ⟨n + 3, depth, env, .letIn pos x v b false⟩ ⟨n + 1, depth, env'.set x w, b⟩
  | letRec {n depth : Nat} {env : Env} {pos pos' : Pos} {x p : String} {code b : Node} :
    Calls limit ⟨n + 3, depth, env, .letIn pos x (.lambda pos' p code) b true⟩
      ⟨n + 1, depth, env.set x (.closure (some x) p code env), b⟩
  | condition {n depth : Nat} {env : Env} {pos : Pos} {c t e : Node} :
    Calls limit ⟨n + 3, depth, env, .cond pos c t e⟩ ⟨n + 1, depth, env, c⟩
  | branch {n depth : Nat} {env env' : Env} {pos : Pos} {c t e : Node} {a : Num} :
    eval limit (n + 1) depth c env = .ok (ofNum a) env' →
    Calls limit ⟨n + 3, depth, env, .cond pos c t e⟩ ⟨n + 1, depth, env', if a.isZero then e else t⟩
  | scrutinee {n depth : Nat} {env : Env} {pos : Pos} {s : Node} {cs : List (Node × Node)} :
    Calls limit ⟨n + 3, depth, env, .matching pos s cs⟩ ⟨n + 1, depth, env, s⟩
  | case {n depth : Nat} {env env' : Env} {pos : Pos} {s p e : Node} {cs : List (Node × Node)} {v : Value} :
    eval limit (n + 1) depth s env = .ok v env' → IsPattern p →
    Calls limit ⟨n + 3, depth, env, .matching pos s ((p, e) :: cs)⟩ ⟨n + 1, depth, matched env' p v, e⟩
  | callee {n depth : Nat} {env : Env} {pos : Pos} {f a : Node} :
    Calls limit ⟨n + 3, depth, env, .apply pos f a⟩ ⟨n + 1, depth, env, f⟩
  | argument {n depth : Nat} {env env' captured : Env} {pos : Pos} {f a code : Node}
    {self : Option String} {p : String} :
    eval limit (n + 1) depth f env = .ok (.closure self p code captured) env' →
    Calls limit ⟨n + 3, depth, env, .apply pos f a⟩ ⟨n + 1, depth, env', a⟩
  | body {n depth : Nat} {env env' env'' captured : Env} {pos : Pos} {f a code : Node}
    {self : Option String} {p : String} {w : Value} :
    eval limit (n + 1) depth f env = .ok (.closure self p code captured) env' →
    eval limit (n + 1) depth a env' = .ok w env'' → depth < limit →
    Calls limit ⟨n + 3, depth, env, .apply pos f a⟩
      ⟨n, depth + 1, callEnv (.closure self p code captured) self p captured w, code⟩
  | left {n depth : Nat} {env : Env} {pos : Pos} {o : String} {l r : Node} :
    Calls limit ⟨n + 3, depth, env, .binary pos o l r⟩ ⟨n, depth, env, l⟩
  | right {n depth : Nat} {env env' : Env} {pos : Pos} {o : String} {l r : Node} {a : Num} :
    eval limit n depth l env = .ok (ofNum a) env' → (o = "&&" → a.isZero = false) →
    (o = "||" → a.isZero = true) →
    Calls limit ⟨n + 3, depth, env, .binary pos o l r⟩ ⟨n, depth, env', r⟩
  | operand {n depth : Nat} {env : Env} {pos : Pos} {o : String} {e : Node} :
    Calls limit ⟨n + 3, depth, env, .unary pos o e⟩ ⟨n, depth, env, e⟩

/-- An evaluation calls for another, by way of others. -/
abbrev Reaches (limit : Int) : Point → Point → Prop := Relation.ReflTransGen (Calls limit)

/-- The evaluation of a remainder of numbers that satisfy `Q`. -/
inductive IsRemainder (limit : Int) (Q : Num → Num → Prop) : Point → Prop
  | mk {n depth : Nat} {env env' env'' : Env} {pos : Pos} {l r : Node} {a b : Num} :
    eval limit n depth l env = .ok (ofNum a) env' → eval limit n depth r env' = .ok (ofNum b) env'' →
    Q a b → IsRemainder limit Q ⟨n + 3, depth, env, .binary pos "mod" l r⟩

theorem Calls.frames_lt {p q : Point} (h : Calls limit p q) : q.frames < p.frames := by
  cases h <;> dsimp only <;> omega

/-! ## A failure passes to the points that call for it -/

theorem number?_ofNum (a : Num) : number? (ofNum a) = some a := by
  cases a <;> rfl

theorem number?_eq_some {v : Value} {a : Num} : number? v = some a ↔ v = ofNum a := by
  refine ⟨fun h => ?_, fun h => h ▸ number?_ofNum a⟩
  cases v <;> cases h <;> rfl

section

variable {far : Node → Eval Value} {o : String} {n : Node} {env env' env'' : Env} {a : Num} {f : Failure}

theorem operand_ok (h : far n env = .ok (ofNum a) env') : Eval.operand far o n env = .ok a env' := by
  rw [Eval.operand, bind_ok h, number?_ofNum]
  rfl

theorem within_error {x : Eval Value} (h : x env' = .error f env'') : within env' x env = .error f env := by
  rw [within, h]

theorem operand_error (h : far n env = .error f env') : Eval.operand far o n env = .error f env' := by
  rw [Eval.operand, bind_run, h]

end

/-- Whatever an evaluation calls for makes it fail if it fails itself, and with the same failure. -/
theorem Calls.fails {p q : Point} {f : Failure} (h : Calls limit p q) (hq : q.Fails limit f) :
    p.Fails limit f := by
  obtain ⟨e, hq⟩ := hq
  cases h with
  | letDecl => exact ⟨e, by rw [eval, rule, Eval.letDecl, bind_run, hq]⟩
  | exprStmt => exact ⟨e, hq⟩
  | letValue => exact ⟨e, by rw [eval, rule, letIn, if_neg Bool.false_ne_true, bind_run, hq]⟩
  | @letBody _ _ _ env' _ _ _ _ _ hv =>
    refine ⟨env', ?_⟩
    rw [eval, rule, letIn, if_neg Bool.false_ne_true]
    exact (bind_ok hv _).trans (within_error hq)
  | @letRec _ _ env _ pos' x p code =>
    have hv : recursiveValue x (.lambda pos' p code) env = .ok (.closure (some x) p code env) env := rfl
    refine ⟨env, ?_⟩
    rw [eval, rule, letIn, if_pos rfl]
    exact (bind_ok hv _).trans (within_error hq)
  | condition => exact ⟨e, by rw [eval, rule, Eval.cond, bind_run, hq]⟩
  | @branch _ _ _ _ _ _ _ _ a hc =>
    refine ⟨e, ?_⟩
    rw [eval, rule, Eval.cond, bind_ok hc, number?_ofNum]
    dsimp only at hq ⊢
    split
    next ha => rwa [if_pos ha] at hq
    next ha => rwa [if_neg ha] at hq
  | scrutinee => exact ⟨e, by rw [eval, rule, matching, bind_run, hq]⟩
  | @case _ _ _ env' _ _ _ _ _ _ hs hp =>
    cases hp with
    | wildcard => exact ⟨e, by rw [eval, rule, matching, bind_ok hs]; exact hq⟩
    | bind =>
      refine ⟨env', ?_⟩
      rw [eval, rule, matching]
      exact (bind_ok hs _).trans (within_error hq)
  | callee => exact ⟨e, by rw [eval, rule, Eval.apply, bind_run, hq]⟩
  | argument hf => exact ⟨e, by rw [eval, rule, Eval.apply, bind_ok hf]; dsimp only; rw [bind_run, hq]⟩
  | @body _ _ _ _ env'' _ _ _ _ _ _ _ _ hf ha hlt =>
    refine ⟨env'', ?_⟩
    rw [eval, rule, Eval.apply, bind_ok hf]
    dsimp only
    rw [bind_ok ha, if_neg (Int.not_le.mpr hlt), within_error hq]
  | left => exact ⟨e, by rw [eval, rule, Eval.binary, bind_run, operand_error hq]⟩
  | @right _ _ _ _ _ o _ _ _ hl hand hor =>
    refine ⟨e, ?_⟩
    rw [eval, rule, Eval.binary, bind_ok (operand_ok hl)]
    by_cases ho : o = "&&"
    · rw [if_pos ho, hand ho, if_neg Bool.false_ne_true, bind_run, operand_error hq]
    · rw [if_neg ho]
      by_cases ho : o = "||"
      · rw [if_pos ho, hor ho, if_pos rfl, bind_run, operand_error hq]
      · rw [if_neg ho, bind_run, operand_error hq]
  | operand => exact ⟨e, by rw [eval, rule, Eval.unary, bind_run, operand_error hq]⟩

/-- A failure passes to every point from which it is reached. -/
theorem Reaches.fails {p q : Point} {f : Failure} (h : Reaches limit p q) (hq : q.Fails limit f) :
    p.Fails limit f := by
  induction h using Relation.ReflTransGen.head_induction_on with
  | refl => exact hq
  | head hcalls _ ih => exact hcalls.fails ih

/-! ## Where a failure arises -/

section

variable {far : Node → Eval Value} {o : String} {m : Node} {env env' : Env} {f : Failure}

theorem within_eq_error {x : Eval Value} {e : Env} (h : within env' x env = .error f e) :
    ∃ e', x env' = .error f e' := by
  rw [within] at h
  split at h <;> cases h
  exact ⟨_, ‹_›⟩

theorem operand_eq_ok {a : Num} :
    Eval.operand far o m env = .ok a env' ↔ far m env = .ok (ofNum a) env' := by
  refine ⟨fun h => ?_, operand_ok⟩
  obtain ⟨v, e, hv, h⟩ := bind_eq_ok.mp h
  cases hn : number? v with
  | none => rw [hn] at h; cases h
  | some b =>
    rw [hn] at h
    cases h
    rw [hv, number?_eq_some.mp hn]

theorem operand_eq_error (h : Eval.operand far o m env = .error f env') :
    far m env = .error f env' ∨ f.Reported := by
  rcases bind_eq_error.mp h with h | ⟨v, e, -, h⟩
  · exact .inl h
  · cases hn : number? v with
    | none => rw [hn] at h; cases h; exact .inr trivial
    | some b => rw [hn] at h; cases h

end

/-- A failure of an evaluation is that of one which it calls for, or it is reported, or it arises here. -/
def Explained (limit : Int) (p : Point) (f : Failure) : Prop :=
  (∃ q, Calls limit p q ∧ q.Fails limit f) ∨ f.Reported ∨
    f = .crash .noRemainder ∧ IsRemainder limit Num.LackRemainder p

section

variable {n depth : Nat} {env : Env} {pos : Pos} {f : Failure}

theorem explained_letIn {x : String} {v b : Node} {r : Bool} (hr : r = true → v.isLambda = true)
    (h : Fails limit ⟨n + 3, depth, env, .letIn pos x v b r⟩ f) :
    Explained limit ⟨n + 3, depth, env, .letIn pos x v b r⟩ f := by
  obtain ⟨e, h⟩ := h
  rw [eval, rule, letIn] at h
  cases r with
  | false =>
    rcases bind_eq_error.mp h with h | ⟨w, env', hv, h⟩
    · exact .inl ⟨_, .letValue, _, h⟩
    · exact .inl ⟨_, .letBody hv, within_eq_error h⟩
  | true =>
    cases v with
    | lambda pos' p code => exact .inl ⟨_, .letRec, within_eq_error h⟩
    | _ => cases hr rfl

theorem explained_cond {c t e : Node} (h : Fails limit ⟨n + 3, depth, env, .cond pos c t e⟩ f) :
    Explained limit ⟨n + 3, depth, env, .cond pos c t e⟩ f := by
  obtain ⟨e', h⟩ := h
  rcases bind_eq_error.mp h with h | ⟨v, env', hv, h⟩
  · exact .inl ⟨_, .condition, _, h⟩
  · cases hn : number? v with
    | none =>
      rw [hn] at h
      cases h
      exact .inr (.inl trivial)
    | some a =>
      rw [hn] at h
      rw [number?_eq_some.mp hn] at hv
      refine .inl ⟨_, .branch hv, e', ?_⟩
      dsimp only at h ⊢
      split at h
      next ha => rwa [if_pos ha]
      next ha => rwa [if_neg ha]

theorem explained_matching {s p e : Node} {cs : List (Node × Node)} (hp : IsPattern p)
    (h : Fails limit ⟨n + 3, depth, env, .matching pos s ((p, e) :: cs)⟩ f) :
    Explained limit ⟨n + 3, depth, env, .matching pos s ((p, e) :: cs)⟩ f := by
  obtain ⟨e', h⟩ := h
  rcases bind_eq_error.mp h with h | ⟨v, env', hv, h⟩
  · exact .inl ⟨_, .scrutinee, _, h⟩
  · refine .inl ⟨_, .case hv hp, ?_⟩
    cases hp with
    | wildcard => exact ⟨e', h⟩
    | bind => exact within_eq_error h

theorem explained_apply {m a : Node} (h : Fails limit ⟨n + 3, depth, env, .apply pos m a⟩ f) :
    Explained limit ⟨n + 3, depth, env, .apply pos m a⟩ f := by
  obtain ⟨e, h⟩ := h
  rcases bind_eq_error.mp h with h | ⟨v, env', hv, h⟩
  · exact .inl ⟨_, .callee, _, h⟩
  cases v with
  | closure self p code captured =>
    rcases bind_eq_error.mp h with h | ⟨w, env'', hw, h⟩
    · exact .inl ⟨_, .argument hv, _, h⟩
    split at h
    · cases h
      exact .inr (.inl trivial)
    next hlt => exact .inl ⟨_, .body hv hw (Int.not_le.mp hlt), within_eq_error h⟩
  | int | float | string | char =>
    cases h
    exact .inr (.inl trivial)

theorem computed_eq_error {o : String} {r : Except NumFault Num} {e : Env}
    (hr : ∀ g, r = .error g → g ≠ .unknownOperator) (h : computed pos o r env = .error f e) :
    f.Reported ∨ f = .crash .noRemainder ∧ r = .error .noRemainder := by
  cases r with
  | ok a => cases h
  | error g =>
    cases g with
    | byZero | tooLarge => cases h; exact .inl trivial
    | noRemainder => cases h; exact .inr ⟨rfl, rfl⟩
    | unknownOperator => exact absurd rfl (hr _ rfl)

theorem explained_binary {o : String} {l r : Node} (ho : o ∈ operatorNames)
    (h : Fails limit ⟨n + 3, depth, env, .binary pos o l r⟩ f) :
    Explained limit ⟨n + 3, depth, env, .binary pos o l r⟩ f := by
  obtain ⟨e, h⟩ := h
  rcases bind_eq_error.mp h with h | ⟨a, env', hl, h⟩
  · exact (operand_eq_error h).elim (fun h => .inl ⟨_, .left, _, h⟩) fun h => .inr (.inl h)
  have hl := operand_eq_ok.mp hl
  -- The second operand is evaluated, if the first does not decide.
  have hright : (o = "&&" → a.isZero = false) → (o = "||" → a.isZero = true) →
      ∀ {e}, Eval.operand (eval limit n depth) o r env' = .error f e →
      Explained limit ⟨n + 3, depth, env, .binary pos o l r⟩ f := fun hand hor e h =>
    (operand_eq_error h).elim (fun h => .inl ⟨_, .right hl hand hor, _, h⟩) fun h => .inr (.inl h)
  by_cases hand : o = "&&"
  · rw [if_pos hand] at h
    cases ha : a.isZero with
    | true =>
      rw [ha, if_pos rfl] at h
      cases h
    | false =>
      rw [ha, if_neg Bool.false_ne_true] at h
      refine (bind_eq_error.mp h).elim (hright (fun _ => ha) fun hor => ?_) fun ⟨b, _, _, h⟩ => nomatch h
      rw [hand] at hor
      exact absurd hor (by decide)
  rw [if_neg hand] at h
  by_cases hor : o = "||"
  · rw [if_pos hor] at h
    cases ha : a.isZero with
    | true =>
      rw [ha, if_pos rfl] at h
      exact (bind_eq_error.mp h).elim (hright (absurd · hand) fun _ => ha) fun ⟨b, _, _, h⟩ => nomatch h
    | false =>
      rw [ha, if_neg Bool.false_ne_true] at h
      cases h
  rw [if_neg hor] at h
  rcases bind_eq_error.mp h with h | ⟨b, env'', hr, h⟩
  · exact hright (absurd · hand) (absurd · hor) h
  have hr := operand_eq_ok.mp hr
  rcases computed_eq_error (fun g => operate_error ho hand hor) h with h | ⟨rfl, hlack⟩
  · exact .inr (.inl h)
  · obtain ⟨rfl, -, -⟩ := Num.operate_eq_error hlack
    exact .inr (.inr ⟨rfl, .mk hl hr (Num.operate_mod_eq_error.mp hlack)⟩)

theorem explained_unary {o : String} {m : Node} (h : Fails limit ⟨n + 3, depth, env, .unary pos o m⟩ f) :
    Explained limit ⟨n + 3, depth, env, .unary pos o m⟩ f := by
  obtain ⟨e, h⟩ := h
  rcases bind_eq_error.mp h with h | ⟨a, env', hm, h⟩
  · exact (operand_eq_error h).elim (fun h => .inl ⟨_, .operand, _, h⟩) fun h => .inr (.inl h)
  rcases computed_eq_error (fun g h => negate_error h ▸ nofun) h with h | ⟨-, h⟩
  · exact .inr (.inl h)
  · cases negate_error h

theorem explained_ident {x : String} (h : Fails limit ⟨n + 3, depth, env, .ident pos x⟩ f) :
    Explained limit ⟨n + 3, depth, env, .ident pos x⟩ f := by
  obtain ⟨e, h⟩ := h
  rw [eval, rule, Eval.ident, get_bind] at h
  dsimp only at h
  cases hx : env.get? x with
  | some v => rw [hx] at h; cases h
  | none =>
    rw [hx] at h
    cases h
    exact .inr (.inl trivial)

theorem explained_letDecl {x : String} {v : Node} (h : Fails limit ⟨n + 3, depth, env, .letDecl pos x v⟩ f) :
    Explained limit ⟨n + 3, depth, env, .letDecl pos x v⟩ f := by
  obtain ⟨e, h⟩ := h
  rcases bind_eq_error.mp h with h | ⟨w, env', -, h⟩
  · exact .inl ⟨_, .letDecl, _, h⟩
  · cases h

end

/-- A point of the evaluation of a tree that was read. -/
structure Proper (p : Point) : Prop where
  node : IsExpression p.node ∨ IsDeclaration p.node
  env : EnvMade p.env

/-- Every failure is explained. -/
theorem Proper.explained {p : Point} {f : Failure} (hp : p.Proper) (h : p.Fails limit f) :
    Explained limit p f := by
  obtain ⟨hnode, -⟩ := hp
  obtain ⟨frames, depth, env, m⟩ := p
  match frames with
  | 0 | 1 | 2 =>
    obtain ⟨e, h⟩ := h
    cases h
    exact .inr (.inl trivial)
  | n + 3 =>
    rcases hnode with he | hd
    · cases he with
      | letIn pos x _ hr _ => exact explained_letIn hr h
      | cond pos _ _ _ => exact explained_cond h
      | matching pos _ hne hp _ =>
        obtain ⟨⟨p, e⟩, cs, rfl⟩ := List.exists_cons_of_ne_nil hne
        exact explained_matching (hp _ (List.mem_cons_self ..)) h
      | apply pos _ _ => exact explained_apply h
      | binary pos o _ _ ho => exact explained_binary ho h
      | unary pos o _ => exact explained_unary h
      | ident pos x => exact explained_ident h
      | lambda | intLit | floatLit | stringLit | charLit =>
        obtain ⟨e, h⟩ := h
        cases h
    · cases hd with
      | letDecl pos x _ => exact explained_letDecl h
      | exprStmt pos _ => exact .inl ⟨_, .exprStmt, h⟩
      | funDecl =>
        obtain ⟨e, h⟩ := h
        cases h

/-! ## From the declaration to where a failure arises -/

/-- A proper point calls for proper points only. -/
theorem Calls.proper {p q : Point} (h : Calls limit p q) (hp : p.Proper) : q.Proper := by
  obtain ⟨hnode, henv⟩ := hp
  rcases hnode with he | hd
  · cases h with
    | letDecl | exprStmt => cases he
    | letValue => cases he with | letIn _ _ hv _ _ => exact ⟨.inl hv, henv⟩
    | letBody hrun =>
      cases he with
      | letIn _ _ hv _ hb =>
        obtain ⟨rfl, hw⟩ := eval_ok_made hv henv hrun
        exact ⟨.inl hb, henv.set hw⟩
    | letRec =>
      cases he with
      | letIn _ _ hv _ hb =>
        cases hv with
        | lambda _ _ hcode =>
          exact ⟨.inl hb, henv.set (respects_closure henv hcode fun _ _ => .inr (.inr trivial))⟩
    | condition => cases he with | cond _ hc _ _ => exact ⟨.inl hc, henv⟩
    | branch hrun =>
      cases he with
      | cond _ hc ht he =>
        obtain ⟨rfl, -⟩ := eval_ok_made hc henv hrun
        refine ⟨.inl ?_, henv⟩
        dsimp only
        split
        · exact he
        · exact ht
    | scrutinee => cases he with | matching _ hs _ _ _ => exact ⟨.inl hs, henv⟩
    | case hrun hp =>
      cases he with
      | matching _ hs _ _ he =>
        obtain ⟨rfl, hw⟩ := eval_ok_made hs henv hrun
        refine ⟨.inl (he _ (List.mem_cons_self ..)), ?_⟩
        cases hp with
        | wildcard => exact henv
        | bind => exact henv.set hw
    | callee => cases he with | apply _ hf _ => exact ⟨.inl hf, henv⟩
    | argument hrun =>
      cases he with
      | apply _ hf ha =>
        obtain ⟨rfl, -⟩ := eval_ok_made hf henv hrun
        exact ⟨.inl ha, henv⟩
    | body hrun harg _ =>
      cases he with
      | apply _ hf ha =>
        obtain ⟨rfl, hclosure⟩ := eval_ok_made hf henv hrun
        obtain ⟨rfl, hw⟩ := eval_ok_made ha henv harg
        refine ⟨.inl ?_, (callEnv_respects hclosure hw).1⟩
        cases hclosure with
        | closure hcode => exact hcode
    | left => cases he with | binary _ _ hl _ _ => exact ⟨.inl hl, henv⟩
    | right hrun =>
      cases he with
      | binary _ _ hl hr _ =>
        obtain ⟨rfl, -⟩ := eval_ok_made hl henv hrun
        exact ⟨.inl hr, henv⟩
    | operand => cases he with | unary _ _ he => exact ⟨.inl he, henv⟩
  · cases h with
    | letDecl => cases hd with | letDecl _ _ hv => exact ⟨.inl hv, henv⟩
    | exprStmt => cases hd with | exprStmt _ he => exact ⟨.inl he, henv⟩
    | _ => cases hd

theorem IsRemainder.fails {p : Point} (h : IsRemainder limit Num.LackRemainder p) :
    p.Fails limit (.crash .noRemainder) := by
  cases h with
  | @mk n depth env env' env'' pos l r a b hl hr hlack =>
    refine ⟨env'', ?_⟩
    rw [eval, rule, Eval.binary, bind_ok (operand_ok hl), if_neg (by decide), if_neg (by decide),
      bind_ok (operand_ok hr), Num.operate_mod_eq_error.mpr hlack]
    rfl

/-- A failure is reported, or it is that of a remainder without a value which is reached. -/
theorem Proper.fails_cases {p : Point} {f : Failure} (hp : p.Proper) (h : p.Fails limit f) :
    f.Reported ∨
      f = .crash .noRemainder ∧ ∃ q, Reaches limit p q ∧ IsRemainder limit Num.LackRemainder q := by
  -- A failure comes from a call with fewer frames, or it arises here.
  induction hn : p.frames using Nat.strongRecOn generalizing p with
  | _ n ih =>
    subst hn
    rcases hp.explained h with ⟨q, hcalls, hq⟩ | hreported | ⟨rfl, hlack⟩
    · refine (ih q.frames hcalls.frames_lt (hcalls.proper hp) hq rfl).imp_right fun ⟨hf, r, hreach, hr⟩ => ?_
      exact ⟨hf, r, hreach.head hcalls, hr⟩
    · exact .inl hreported
    · exact .inr ⟨rfl, p, .refl, hlack⟩

/-- An evaluation crashes if and only if it reaches a remainder without a value. -/
theorem Proper.fails_noRemainder {p : Point} (hp : p.Proper) :
    p.Fails limit (.crash .noRemainder) ↔
      ∃ q, Reaches limit p q ∧ IsRemainder limit Num.LackRemainder q := by
  constructor
  · exact fun h => ((hp.fails_cases h).resolve_left id).2
  · rintro ⟨q, hreach, hq⟩
    exact hreach.fails hq.fails

end Point

end Camlet
