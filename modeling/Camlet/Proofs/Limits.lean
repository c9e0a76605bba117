import Camlet.Evaluation.Basic
import Camlet.Proofs.Stateful
import Camlet.Typing.Analysis

/-
  The limits of the analysis and of evaluation only decide whether they come to an end. What passes the
  analysis within a depth passes it within any larger one, and what has a value within some frames, under a
  limit of nested applications, has it within more of them and under a larger limit; all else is the same as
  well, the faults included, unless the limit itself was met.
-/

namespace Camlet

open Stateful

/-! ## The depth of the analysis -/

namespace Infer

open Check

/-- `y` does what `x` does, unless `x` stops for the depth of nesting. -/
abbrev Deepens {α : Type} (x y : Check α) : Prop := ExtendsPast (· = .tooDeep) x y

theorem deepens_within {α : Type} {x y : Check α} (h : Deepens x y) (frame : Frame) :
    Deepens (within frame x) (within frame y) := by
  intro c
  unfold within
  rcases h { c with scopes := frame :: c.scopes } with h | ⟨e, c', he, h⟩
  · rw [h]
    exact .inl rfl
  · rw [h]
    exact .inr ⟨e, _, he, rfl⟩

section

variable {sub sub' : Node → Check Typing} (h : ∀ n, Deepens (sub n) (sub' n))

include h

theorem deepens_letIn (pos : Pos) (x : String) (v b : Node) (r : Bool) :
    Deepens (letIn sub pos x v b r) (letIn sub' pos x v b r) := by
  refine deepens_within ?_ []
  cases r with
  | false => exact .bind (h v) fun _ => .bind_right fun _ => h b
  | true => exact .bind_right fun _ => .bind (h v) fun _ => .bind_right fun _ => h b

theorem deepens_funDecl (pos : Pos) (x : String) (ps : List String) (b : Node) (r : Bool) :
    Deepens (funDecl sub pos x ps b r) (funDecl sub' pos x ps b r) :=
  .bind_left (deepens_within (deepens_within (.bind_right fun _ => h b) _) _)

theorem deepens_cond (pos : Pos) (n m k : Node) :
    Deepens (Infer.cond sub pos n m k) (Infer.cond sub' pos n m k) :=
  .bind (h n) fun _ => .ite (.bind (h m) fun _ => .bind_left (h k))
    (.bind_right fun _ => .bind (h m) fun _ => .bind_left (h k))

theorem deepens_cases (before : Typing) (all : Option Node) (cs : List (Node × Node)) :
    Deepens (cases sub before all cs) (cases sub' before all cs) := by
  induction cs generalizing before all with
  | nil => exact .refl _
  | cons c cs ih =>
    obtain ⟨p, e⟩ := c
    have hguarded : ∀ {b : Bool} {r : Check Unit} {k k' : Check Typing}, Deepens k k' →
        Deepens (if b = true then r >>= fun _ => k else k) (if b = true then r >>= fun _ => k' else k') :=
      fun hk => .ite (.bind_right fun _ => hk) hk
    -- A case declares a name if its pattern is one, and warns if a case in front matches everything.
    have hbody : ∀ {x x' : Check Typing} {all' : Option Node}, Deepens x x' →
        Deepens (within [] x >>= fun t => if before.isSome && !before.compatible t then
            refuse e.pos (.cases before.name t.name) >>= fun _ =>
              cases sub (if before.isSome then before.unify t else t) all' cs
          else cases sub (if before.isSome then before.unify t else t) all' cs)
        (within [] x' >>= fun t => if before.isSome && !before.compatible t then
            refuse e.pos (.cases before.name t.name) >>= fun _ =>
              cases sub' (if before.isSome then before.unify t else t) all' cs
          else cases sub' (if before.isSome then before.unify t else t) all' cs) :=
      fun hx => (deepens_within hx []).bind fun _ => hguarded (ih _ _)
    cases p with
    | bind pos x =>
      cases all with
      | none => exact hbody (.bind_right fun _ => h e)
      | some q => exact .bind_right fun _ => hbody (.bind_right fun _ => h e)
    | _ =>
      cases all with
      | none => exact hbody (h e)
      | some q => exact .bind_right fun _ => hbody (h e)

theorem deepens_rule (n : Node) : Deepens (rule sub n) (rule sub' n) := by
  cases n with
  | letDecl pos x v => exact .bind_left (h v)
  | funDecl pos x ps b r => exact deepens_funDecl h pos x ps b r
  | exprStmt pos e => exact h e
  | letIn pos x v b r => exact deepens_letIn h pos x v b r
  | cond pos n m k => exact deepens_cond h pos n m k
  | matching pos s cs => exact .bind (h s) fun _ => deepens_cases h none none cs
  | lambda pos p b => exact deepens_within (.bind_right fun _ => .bind_left (h b)) []
  | apply pos f a => exact .bind (h f) fun _ => .bind_left (h a)
  | binary pos o l r => exact .bind (h l) fun _ => .bind_left (h r)
  | unary pos o e => exact .bind_left (h e)
  | _ => exact .refl _

end

end Infer

/-- One level more only makes the analysis go on where it stopped for the nesting. -/
theorem infer_deepens_succ (depth : Nat) (n : Node) :
    Infer.Deepens (infer depth n) (infer (depth + 1) n) := by
  induction depth generalizing n with
  | zero => exact fun c => .inr ⟨_, c, rfl, rfl⟩
  | succ depth ih => exact Infer.deepens_rule ih n

theorem infer_deepens {depth larger : Nat} (h : depth ≤ larger) (n : Node) :
    Infer.Deepens (infer depth n) (infer larger n) := by
  induction h with
  | refl => exact .refl _
  | step _ ih => exact ih.trans (infer_deepens_succ _ n)

/-! ## The frames and the applications of an evaluation -/

namespace Eval

variable {E : Failure → Prop}

theorem outlasts_within {α : Type} {x y : Eval α} (h : ExtendsPast E x y) (env : Env) :
    ExtendsPast E (within env x) (within env y) := by
  intro s
  unfold within
  rcases h env with h | ⟨e, _, he, h⟩
  · rw [h]
    exact .inl rfl
  · rw [h]
    exact .inr ⟨e, s, he, rfl⟩

section

variable {near near' far far' body body' : Node → Eval Value}
  (hnear : ∀ n, ExtendsPast E (near n) (near' n)) (hfar : ∀ n, ExtendsPast E (far n) (far' n))
  (hbody : ∀ n, ExtendsPast E (body n) (body' n))

include hfar in
theorem outlasts_operand (o : String) (n : Node) : ExtendsPast E (operand far o n) (operand far' o n) :=
  .bind_left (hfar n)

include hnear in
theorem outlasts_letIn (x : String) (v b : Node) (r : Bool) :
    ExtendsPast E (letIn near x v b r) (letIn near' x v b r) := by
  have hrest : ∀ w, ExtendsPast E (get >>= fun env => within (env.set x w) (near b))
      (get >>= fun env => within (env.set x w) (near' b)) := fun _ =>
    .bind_right fun _ => outlasts_within (hnear b) _
  cases r with
  | false => exact .bind (hnear v) hrest
  | true => exact .bind_right hrest

include hnear in
theorem outlasts_cond (c t e : Node) : ExtendsPast E (Eval.cond near c t e) (Eval.cond near' c t e) := by
  refine .bind (hnear c) fun v => ?_
  cases number? v with
  | none => exact .refl _
  | some a => exact .ite (hnear e) (hnear t)

include hnear in
theorem outlasts_cases (pos : Pos) (v : Value) (cs : List (Node × Node)) :
    ExtendsPast E (cases near pos v cs) (cases near' pos v cs) := by
  induction cs with
  | nil => exact .refl _
  | cons c cs ih =>
    obtain ⟨p, e⟩ := c
    cases p with
    | wildcard => exact hnear e
    | bind => exact .bind_right fun _ => outlasts_within (hnear e) _
    | _ => exact ih

include hfar in
theorem outlasts_binary (pos : Pos) (o : String) (l r : Node) :
    ExtendsPast E (binary far pos o l r) (binary far' pos o l r) :=
  have hright : ∀ {α : Type} (k : Num → Eval α), ExtendsPast E (operand far o r >>= k) (operand far' o r >>= k) :=
    fun _ => .bind_left (outlasts_operand hfar o r)
  .bind (outlasts_operand hfar o l) fun _ =>
    .ite (.ite (.refl _) (hright _)) (.ite (.ite (hright _) (.refl _)) (hright _))

-- Under a larger limit, an application goes on where the smaller one stops it.
variable {limit larger : Int} (hlimit : limit ≤ larger)
  (hdeep : limit < larger → ∀ pos, E (.fault ⟨pos, .applicationDepth limit⟩))

include hnear hbody hlimit hdeep in
theorem outlasts_apply (depth : Nat) (pos : Pos) (f a : Node) :
    ExtendsPast E (apply near body limit depth pos f a) (apply near' body' larger depth pos f a) := by
  refine .bind (hnear f) fun v => ?_
  cases v with
  | closure self param code captured =>
    refine .bind (hnear a) fun u => ?_
    rcases Int.lt_or_eq_of_le hlimit with hlt | rfl
    · by_cases hd : limit ≤ depth
      · rw [if_pos hd]
        exact .throw (hdeep hlt pos) _
      · have hd' : ¬ larger ≤ depth := by omega
        rw [if_neg hd, if_neg hd']
        exact outlasts_within (hbody code) _
    · exact .ite (.refl _) (outlasts_within (hbody code) _)
  | _ => exact .refl _

include hnear hfar hbody hlimit hdeep

theorem outlasts_rule (depth : Nat) (n : Node) :
    ExtendsPast E (rule near far body limit depth n) (rule near' far' body' larger depth n) := by
  cases n with
  | letDecl pos x v => exact .bind_left (hnear v)
  | exprStmt pos e => exact hnear e
  | letIn pos x v b r => exact outlasts_letIn hnear x v b r
  | cond pos c t e => exact outlasts_cond hnear c t e
  | matching pos s cs => exact .bind (hnear s) fun v => outlasts_cases hnear pos v cs
  | apply pos f a => exact outlasts_apply hnear hbody hlimit hdeep depth pos f a
  | binary pos o l r => exact outlasts_binary hfar pos o l r
  | unary pos o e => exact .bind_left (outlasts_operand hfar o e)
  | _ => exact .refl _

end

end Eval

/-- More frames and a larger limit only make an evaluation go on where it ran out of frames, or where it
met the limit. -/
theorem eval_outlasts_limit {E : Failure → Prop} {limit larger : Int} (hframes : E .outOfFrames)
    (hlimit : limit ≤ larger) (hdeep : limit < larger → ∀ pos, E (.fault ⟨pos, .applicationDepth limit⟩))
    {frames more : Nat} (h : frames ≤ more) (depth : Nat) (n : Node) :
    ExtendsPast E (eval limit frames depth n) (eval larger more depth n) := by
  -- On the frames that are left: every node that a rule evaluates has fewer.
  induction frames using Nat.strongRecOn generalizing more depth n with
  | ind frames ih =>
    match frames, more, h with
    | 0, _, _ | 1, _, _ | 2, _, _ => exact .throw hframes _
    | k + 3, m + 3, h =>
      exact Eval.outlasts_rule (ih (k + 1) (by omega) (by omega) depth) (ih k (by omega) (by omega) depth)
        (ih k (by omega) (by omega) (depth + 1)) hlimit hdeep depth n

/-- More frames only make an evaluation go on where it ran out of them. -/
theorem eval_outlasts (limit : Int) {frames larger : Nat} (h : frames ≤ larger) (depth : Nat) (n : Node) :
    ExtendsPast (· = .outOfFrames) (eval limit frames depth n) (eval limit larger depth n) := by
  refine eval_outlasts_limit ?_ (Int.le_refl limit) ?_ h depth n
  · rfl
  · exact fun hlt => absurd hlt (Int.lt_irrefl limit)

end Camlet
