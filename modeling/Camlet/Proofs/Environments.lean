import Camlet.Evaluation.Basic
import Camlet.Proofs.Shape
import Camlet.Proofs.Stateful

/-
  Evaluation of expressions, rule by rule. A step keeps its environment if it ends in the one it started
  in, whatever it comes to; the lemmas say for each rule that it does, and what its value and its failure
  satisfy, in terms of those of the nodes below. Two developments build on them: the one on names that
  are never bound, and the one on kinds that are certain.
-/

namespace Camlet

open Stateful

/-- Whether the frames were used up: as a failure, or as the fault that is reported for it. -/
def Failure.exhausted : Failure → Bool
  | .outOfFrames | .fault ⟨_, .stackOverflow _⟩ => true
  | _ => false

namespace Eval

variable {α β : Type}

/-- Run in `env`, a step gives a value that satisfies `P` or fails in a way that satisfies `Q`. -/
def Gives (env : Env) (x : Eval α) (P : α → Prop) (Q : Failure → Prop) : Prop :=
  match x env with
  | .ok a _ => P a
  | .error f _ => Q f

/-- Besides, it leaves the environment as it was. -/
def Keeps (env : Env) (x : Eval α) (P : α → Prop) (Q : Failure → Prop) : Prop :=
  match x env with
  | .ok a env' => env' = env ∧ P a
  | .error f env' => env' = env ∧ Q f

/-- What holds of every failure but of a name that is not bound. -/
def Lenient (Q : Failure → Prop) : Prop :=
  ∀ f, (∀ pos x, f ≠ .fault ⟨pos, .undefined x⟩) → Q f

/-- What holds of every failure that a rule comes to of itself, but of a name that is not bound: no rule of
itself runs out of frames. -/
def Tolerant (Q : Failure → Prop) : Prop :=
  ∀ f, (∀ pos x, f ≠ .fault ⟨pos, .undefined x⟩) → f.exhausted = false → Q f

theorem Lenient.tolerant {Q : Failure → Prop} (h : Lenient Q) : Tolerant Q := fun f hf _ => h f hf

variable {env : Env} {x : Eval α} {P P' : α → Prop} {Q : Failure → Prop}

theorem Keeps.gives (h : Keeps env x P Q) : Gives env x P Q := by
  unfold Keeps at h
  unfold Gives
  cases hx : x env <;> rw [hx] at h <;> exact h.2

theorem keeps_pure {a : α} (h : P a) : Keeps env (pure a) P Q := ⟨rfl, h⟩

theorem keeps_throw {f : Failure} (h : Q f) : Keeps env (throw f : Eval α) P Q := ⟨rfl, h⟩

theorem keeps_get {f : Env → Eval α} (h : Keeps env (f env) P Q) : Keeps env (get >>= f) P Q := h

theorem Keeps.bind {f : α → Eval β} {R : β → Prop} (hx : Keeps env x P Q)
    (hf : ∀ a, P a → Keeps env (f a) R Q) : Keeps env (x >>= f) R Q := by
  unfold Keeps at hx ⊢
  rw [bind_run]
  cases h : x env with
  | ok a env' =>
    rw [h] at hx
    obtain ⟨rfl, ha⟩ := hx
    exact hf a ha
  | error e env' =>
    rw [h] at hx
    exact hx

/-- A step in another environment gives that one up. -/
theorem keeps_within {env' : Env} (h : Gives env' x P Q) : Keeps env (within env' x) P Q := by
  unfold Gives at h
  unfold Keeps within
  cases hx : x env' <;> rw [hx] at h <;> exact ⟨rfl, h⟩

theorem Keeps.mono (h : Keeps env x P Q) (hP : ∀ a, P a → P' a) : Keeps env x P' Q := by
  unfold Keeps at h ⊢
  cases hx : x env with
  | ok a env' =>
    rw [hx] at h
    exact ⟨h.1, hP a h.2⟩
  | error f env' =>
    rw [hx] at h
    exact h

/-! ## One lemma for each rule -/

section

variable (hQ : Tolerant Q)

include hQ

theorem keeps_fail {pos : Pos} {f : RuntimeFault} (hf : ∀ x, f ≠ .undefined x)
    (hframes : ∀ x, f ≠ .stackOverflow x) : Keeps env (fail pos f : Eval α) P Q := by
  refine keeps_throw (hQ _ (fun pos' x h => ?_) ?_)
  · cases h
    exact hf x rfl
  · cases f with
    | stackOverflow x => exact absurd rfl (hframes x)
    | _ => rfl

variable {near far body : Node → Eval Value} {pos : Pos} {P : Value → Prop}

theorem keeps_operand {o : String} {n : Node} (hn : Keeps env (far n) P Q) :
    Keeps env (operand far o n) (fun a => P (ofNum a)) Q := by
  refine hn.bind fun v hv => ?_
  cases v with
  | int n => exact keeps_pure hv
  | float y => exact keeps_pure hv
  | string | char | closure => exact keeps_fail hQ nofun nofun

theorem keeps_computed {o : String} {r : Except NumFault Num} (h : ∀ a, r = .ok a → P (ofNum a)) :
    Keeps env (computed pos o r) P Q := by
  cases r with
  | ok a => exact keeps_pure (h a rfl)
  | error f =>
    cases f with
    | byZero => exact keeps_fail hQ nofun nofun
    | tooLarge => exact keeps_throw (hQ _ nofun rfl)
    | noRemainder => exact keeps_throw (hQ _ nofun rfl)
    | unknownOperator => exact keeps_fail hQ nofun nofun

theorem keeps_binary {o : String} {l r : Node} {Pl Pr : Value → Prop} (hl : Keeps env (far l) Pl Q)
    (hr : Keeps env (far r) Pr Q) (hbool : o = "&&" ∨ o = "||" → ∀ b, P (ofNum (.ofBool b)))
    (h : ∀ a b c, Pl (ofNum a) → Pr (ofNum b) → a.operate o b = .ok c → P (ofNum c)) :
    Keeps env (binary far pos o l r) P Q := by
  refine (keeps_operand hQ hl).bind fun a ha => ?_
  have hlogical : o = "&&" ∨ o = "||" →
      Keeps env (operand far o r >>= fun b => pure (ofNum (.ofBool !b.isZero))) P Q := fun ho =>
    (keeps_operand hQ hr).bind fun b _ => keeps_pure (hbool ho _)
  by_cases hand : o = "&&"
  · rw [if_pos hand]
    by_cases hzero : a.isZero = true
    · rw [if_pos hzero]
      exact keeps_pure (hbool (.inl hand) _)
    · rw [if_neg hzero]
      exact hlogical (.inl hand)
  · rw [if_neg hand]
    by_cases hor : o = "||"
    · rw [if_pos hor]
      by_cases hzero : a.isZero = true
      · rw [if_pos hzero]
        exact hlogical (.inr hor)
      · rw [if_neg hzero]
        exact keeps_pure (hbool (.inr hor) _)
    · rw [if_neg hor]
      exact (keeps_operand hQ hr).bind fun b hb => keeps_computed hQ fun c hc => h a b c ha hb hc

theorem keeps_unary {o : String} {n : Node} {Pn : Value → Prop} (hn : Keeps env (far n) Pn Q)
    (h : ∀ a c, Pn (ofNum a) → a.negate o = .ok c → P (ofNum c)) :
    Keeps env (unary far pos o n) P Q :=
  (keeps_operand hQ hn).bind fun a ha => keeps_computed hQ fun c hc => h a c ha hc

theorem keeps_cond {c t e : Node} {Pc : Value → Prop} (hc : Keeps env (near c) Pc Q)
    (ht : Keeps env (near t) P Q) (he : Keeps env (near e) P Q) : Keeps env (cond near c t e) P Q := by
  refine hc.bind fun v _ => ?_
  cases number? v with
  | none => exact keeps_fail hQ nofun nofun
  | some a =>
    dsimp only
    split
    · exact he
    · exact ht

/-- The environment of the body of a case. -/
def matched (env : Env) (p : Node) (v : Value) : Env :=
  match p with
  | .bind _ x => env.set x v
  | _ => env

omit hQ in
/-- The first case is taken, as every pattern matches every value. -/
theorem keeps_matching {s p e : Node} {cs : List (Node × Node)} {Ps : Value → Prop}
    (hs : Keeps env (near s) Ps Q) (hp : IsPattern p)
    (he : ∀ v, Ps v → Keeps (matched env p v) (near e) P Q) :
    Keeps env (matching near pos s ((p, e) :: cs)) P Q := by
  refine hs.bind fun v hv => ?_
  cases hp with
  | wildcard => exact he v hv
  | bind pos x => exact keeps_get (keeps_within (he v hv).gives)

omit hQ in
theorem keeps_letIn {y : String} {v b : Node} {Pv : Value → Prop} (hv : Keeps env (near v) Pv Q)
    (hb : ∀ w, Pv w → Keeps (env.set y w) (near b) P Q) : Keeps env (letIn near y v b false) P Q := by
  refine Keeps.bind (P := Pv) hv fun w hw => ?_
  exact keeps_get (keeps_within (hb w hw).gives)

omit hQ in
theorem keeps_letRec {y p : String} {q : Pos} {code b : Node}
    (hb : Keeps (env.set y (.closure (some y) p code env)) (near b) P Q) :
    Keeps env (letIn near y (.lambda q p code) b true) P Q :=
  keeps_within hb.gives

theorem keeps_apply {limit : Int} {depth : Nat} {f a : Node} {Pf Pa : Value → Prop}
    (hf : Keeps env (near f) Pf Q) (ha : Keeps env (near a) Pa Q)
    (hbody : ¬ limit ≤ depth → ∀ self p code captured w, Pf (.closure self p code captured) → Pa w →
      Gives (callEnv (.closure self p code captured) self p captured w) (body code) P Q) :
    Keeps env (apply near body limit depth pos f a) P Q := by
  refine hf.bind fun v hv => ?_
  cases v with
  | closure self p code captured =>
    refine ha.bind fun w hw => ?_
    split
    next => exact keeps_fail hQ nofun nofun
    next hdepth => exact keeps_within (hbody hdepth self p code captured w hv hw)
  | int | float | string | char => exact keeps_fail hQ nofun nofun

omit hQ in
theorem keeps_ident {y : String} (hbound : ∀ v, env.get? y = some v → P v)
    (hfree : env.get? y = none → Q (.fault ⟨pos, .undefined y⟩)) : Keeps env (ident pos y) P Q := by
  refine keeps_get ?_
  cases hy : env.get? y with
  | some v => exact keeps_pure (hbound v hy)
  | none => exact keeps_throw (hfree hy)

end

end Eval

end Camlet
