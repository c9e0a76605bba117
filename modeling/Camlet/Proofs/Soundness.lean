import Camlet.Proofs.Failures
import Camlet.Proofs.FunctionFree
import Camlet.Proofs.Updates

/-
  Soundness of the analysis for programs without functions. Where an expression has a kind by the rules, its
  value is of that kind, in every environment that gives names values of the kinds which are known of them.
  The name of a declaration that failed is missing from the environment, although its kind is known: then the
  evaluation may fail for want of that name. Otherwise it fails of a division by zero, or of a remainder that
  floating point does not have.

  No operator, sign or condition is given a value of the wrong kind. This is shown of every evaluation that
  is called for, along the way from a declaration.
-/

namespace Camlet

open Eval Stateful

/-! ## Operators -/

/-- An operation on numbers gives one of the kind, or there is no result for what the second number is. -/
def Computes (k : Kind) : Except NumFault Num → Prop
  | .ok c => (ofNum c).kind = k
  | .error f => f = .byZero ∨ f = .noRemainder

section

variable {o : String} {j k : Kind} {a b : Num}

theorem kind_eq_int (h : (ofNum a).kind = .int) : ∃ n, a = .int n := by
  cases a with
  | int n => exact ⟨n, rfl⟩
  | float x => cases h

theorem kind_eq_float (h : (ofNum a).kind = .float) : ∃ x, a = .float x := by
  cases a with
  | int n => cases h
  | float x => exact ⟨x, rfl⟩

theorem computes_guarded {r : Except NumFault Num} (h : Computes k r) :
    Computes k (if b.isZero then .error .byZero else r) := by
  split
  · exact .inl rfl
  · exact h

theorem computes_remainder (x y : Float) : Computes .float (Num.remainder (.float x) (.float y)) := by
  simp only [Num.remainder, Num.toFloat, Bind.bind, Except.bind]
  split
  · rfl
  · exact .inr rfl

/-- An operator that evaluates both operands computes with numbers of a kind that it takes. -/
theorem Takes.computes (h : Takes o j k) (hand : o ≠ "&&") (hor : o ≠ "||") (ha : (ofNum a).kind = j)
    (hb : (ofNum b).kind = j) : Computes k (a.operate o b) := by
  cases h with
  | logical ho =>
    simp only [logicalOperators, List.mem_cons, List.not_mem_nil, or_false] at ho
    rcases ho with rfl | rfl
    · exact absurd rfl hand
    · exact absurd rfl hor
  | floating ho =>
    obtain ⟨x, rfl⟩ := kind_eq_float ha
    obtain ⟨y, rfl⟩ := kind_eq_float hb
    simp only [floatOperators, List.mem_cons, List.not_mem_nil, or_false] at ho
    rcases ho with rfl | rfl | rfl | rfl
    · exact (rfl : Kind.float = .float)
    · exact (rfl : Kind.float = .float)
    · exact (rfl : Kind.float = .float)
    · exact computes_guarded (b := .float y) (r := Num.floating (· / ·) (.float x) (.float y)) rfl
  | comparison ho =>
    cases hop : a.operate o b with
    | ok c => exact truth_kind (.inr ho) hop
    | error f =>
      simp only [comparisonOperators, List.mem_cons, List.not_mem_nil, or_false] at ho
      rcases ho with rfl | rfl | rfl | rfl | rfl | rfl | rfl <;> cases hop
  | arithmetic ho hj =>
    simp only [arithmeticOperators, List.mem_cons, List.not_mem_nil, or_false] at ho
    rcases hj with rfl | rfl
    · obtain ⟨m, rfl⟩ := kind_eq_int ha
      obtain ⟨n, rfl⟩ := kind_eq_int hb
      rcases ho with rfl | rfl | rfl | rfl | rfl
      · exact (rfl : Kind.int = .int)
      · exact (rfl : Kind.int = .int)
      · exact (rfl : Kind.int = .int)
      · exact computes_guarded (b := .int n) (r := Num.mixed Int.fdiv (· / ·) (.int m) (.int n)) rfl
      · exact computes_guarded (b := .int n) (r := Num.remainder (.int m) (.int n)) rfl
    · obtain ⟨x, rfl⟩ := kind_eq_float ha
      obtain ⟨y, rfl⟩ := kind_eq_float hb
      rcases ho with rfl | rfl | rfl | rfl | rfl
      · exact (rfl : Kind.float = .float)
      · exact (rfl : Kind.float = .float)
      · exact (rfl : Kind.float = .float)
      · exact computes_guarded (b := .float y) (r := Num.mixed Int.fdiv (· / ·) (.float x) (.float y)) rfl
      · exact computes_guarded (b := .float y) (computes_remainder x y)

theorem TakesSign.computes (h : TakesSign o k) (ha : (ofNum a).kind = k) : Computes k (a.negate o) := by
  rcases h with rfl | ⟨ho, rfl⟩
  · obtain ⟨x, rfl⟩ := kind_eq_float ha
    unfold Num.negate
    split <;> exact (rfl : Kind.float = .float)
  · obtain ⟨n, rfl⟩ := kind_eq_int ha
    rw [Num.negate, if_neg ho]
    exact (rfl : Kind.int = .int)

theorem TakesSign.numeric (h : TakesSign o k) : k = .int ∨ k = .float :=
  h.symm.imp_left And.right

end

/-! ## Expressions -/

/-- A failure that the evaluation of an expression without functions may come to, where the names in `failed`
may be missing. If there are frames enough, they do not run out. -/
inductive Failure.Allowed (failed : String → Prop) (short : Prop) : Failure → Prop
  | byZero (pos : Pos) (remainder : Bool) : Allowed failed short (.fault ⟨pos, .byZero remainder⟩)
  | noRemainder : Allowed failed short (.crash .noRemainder)
  | undefined (pos : Pos) (x : String) : failed x → Allowed failed short (.fault ⟨pos, .undefined x⟩)
  | outOfFrames : short → Allowed failed short .outOfFrames

/-- An environment gives names values of the kinds that are known of them, but for those in `failed` that are
missing. -/
structure EnvKinded (failed : String → Prop) (g : Kinding) (env : Env) : Prop where
  get : ∀ x k, g x = some k → (∃ v, env.get? x = some v ∧ v.kind = k) ∨ env.get? x = none ∧ failed x
  underscore : g "_" = none

section

variable {failed failed' : String → Prop} {g : Kinding} {env : Env} {k : Kind}

theorem Kinding.bind_underscore (g : Kinding) (x : String) (k : Kind) : g.bind x k "_" = g "_" := by
  rw [Kinding.bind, if_neg fun h => h.2 h.1]

theorem Kinding.bind_eq_none {x y : String} (hy : y ≠ "_") (h : g.bind x k y = none) : x ≠ y ∧ g y = none := by
  unfold Kinding.bind at h
  split at h
  · cases h
  next hx => exact ⟨fun heq => hx ⟨heq, heq ▸ hy⟩, h⟩

/-- A name with a new value, which need not be referred to. -/
theorem EnvKinded.set (h : EnvKinded failed g env) (x : String) {v : Value} (hv : v.kind = k) :
    EnvKinded failed (g.bind x k) (env.set x v) := by
  refine ⟨fun y l hy => ?_, (g.bind_underscore x k).trans h.underscore⟩
  rw [Bindings.get?_set]
  unfold Kinding.bind at hy
  split at hy
  next hx =>
    cases hy
    exact .inl ⟨v, by rw [if_pos hx.1], hv⟩
  next hx =>
    have hne : x ≠ y := by
      rintro rfl
      -- Nothing is known of `_`, which alone is not given a kind.
      by_cases hu : x = "_"
      · rw [hu, h.underscore] at hy
        cases hy
      · exact hx ⟨rfl, hu⟩
    rw [if_neg hne]
    exact h.get y l hy

/-- A name of which the declaration failed. -/
theorem EnvKinded.missing (h : EnvKinded failed g env) (x : String) (k : Kind)
    (hmono : ∀ y, failed y → failed' y) (hx : x ≠ "_" → env.get? x = none ∧ failed' x) :
    EnvKinded failed' (g.bind x k) env := by
  refine ⟨fun y l hy => ?_, (g.bind_underscore x k).trans h.underscore⟩
  unfold Kinding.bind at hy
  split at hy
  next hxy => exact .inr (hxy.1 ▸ hx hxy.2)
  next => exact (h.get y l hy).imp_right (And.imp_right (hmono y))

theorem EnvKinded.mono (h : EnvKinded failed g env) (hmono : ∀ y, failed y → failed' y) :
    EnvKinded failed' g env :=
  ⟨fun y l hy => (h.get y l hy).imp_right (And.imp_right (hmono y)), h.underscore⟩

end

section

variable {failed : String → Prop} {short : Prop} {env : Env} {near far : Node → Eval Value} {pos : Pos}
  {o : String} {j k : Kind}

/-- The kind of a value. -/
abbrev OfKind (k : Kind) (v : Value) : Prop := v.kind = k

theorem keeps_numeric {Q : Failure → Prop} {n : Node} (hj : j = .int ∨ j = .float)
    (hn : Keeps env (far n) (OfKind j) Q) :
    Keeps env (operand far o n) (fun a => OfKind j (ofNum a)) Q := by
  refine hn.bind fun v hv => ?_
  cases v with
  | int | float => exact keeps_pure hv
  | string | char | closure => rcases hj with rfl | rfl <;> cases hv

theorem keeps_computes {r : Except NumFault Num} (h : Computes k r) :
    Keeps env (computed pos o r) (OfKind k) (Failure.Allowed failed short) := by
  cases r with
  | ok c => exact keeps_pure h
  | error f =>
    rcases h with rfl | rfl
    · exact keeps_throw (.byZero ..)
    · exact keeps_throw .noRemainder

theorem keeps_unary_kind {n : Node} (ho : TakesSign o k)
    (hn : Keeps env (far n) (OfKind k) (Failure.Allowed failed short)) :
    Keeps env (unary far pos o n) (OfKind k) (Failure.Allowed failed short) :=
  (keeps_numeric ho.numeric hn).bind fun _ ha => keeps_computes (ho.computes ha)

theorem keeps_binary_kind {l r : Node} (ho : Takes o j k)
    (hl : Keeps env (far l) (OfKind j) (Failure.Allowed failed short))
    (hr : Keeps env (far r) (OfKind j) (Failure.Allowed failed short)) :
    Keeps env (binary far pos o l r) (OfKind k) (Failure.Allowed failed short) := by
  have hright := keeps_numeric (o := o) ho.numeric hr
  refine (keeps_numeric ho.numeric hl).bind fun a ha => ?_
  -- The first operand of `&&` and `||` may decide; then the second is not evaluated.
  have hlogical : o = "&&" ∨ o = "||" → k = .int := by
    rintro (rfl | rfl)
    all_goals
      cases ho with
      | logical => rfl
      | floating ho | comparison ho | arithmetic ho => exact absurd ho (by decide)
  by_cases hand : o = "&&"
  · obtain rfl := hlogical (.inl hand)
    rw [if_pos hand]
    split
    · exact keeps_pure rfl
    · exact hright.bind fun _ _ => keeps_pure rfl
  · rw [if_neg hand]
    by_cases hor : o = "||"
    · obtain rfl := hlogical (.inr hor)
      rw [if_pos hor]
      split
      · exact hright.bind fun _ _ => keeps_pure rfl
      · exact keeps_pure rfl
    · rw [if_neg hor]
      exact hright.bind fun b hb => keeps_computes (ho.computes hand hor ha hb)

theorem keeps_cond_kind {Q : Failure → Prop} {P : Value → Prop} {c t e : Node}
    (hc : Keeps env (near c) (OfKind .int) Q) (ht : Keeps env (near t) P Q) (he : Keeps env (near e) P Q) :
    Keeps env (cond near c t e) P Q := by
  refine hc.bind fun v hv => ?_
  cases v with
  | int n =>
    dsimp only [number?]
    split
    · exact he
    · exact ht
  | float | string | char | closure => cases hv

end

/-- An expression has a value of the kind, or it fails in a way that is allowed; every rule takes three frames
at most. -/
def Safe (failed : String → Prop) (short : Prop) (g : Kinding) (e : Node) (k : Kind) : Prop :=
  ∀ {env : Env}, EnvKinded failed g env → ∀ limit frames depth, (¬ short → 3 * e.height ≤ frames) →
    Keeps env (eval limit frames depth e) (OfKind k) (Failure.Allowed failed short)

section

variable {failed : String → Prop} {short : Prop} {g : Kinding} {e : Node} {k : Kind}

/-- Enough to look at rules: with too few frames for one the frames are short. -/
theorem safe_of_rule (he : HasKind g e k)
    (h : ∀ {env : Env}, EnvKinded failed g env → ∀ limit n depth, (¬ short → 3 * e.height ≤ n + 3) →
      Keeps env (rule (eval limit (n + 1) depth) (eval limit n depth) (eval limit n (depth + 1)) limit depth e)
        (OfKind k) (Failure.Allowed failed short)) : Safe failed short g e k := by
  intro env henv limit frames depth hframes
  have hfew : frames < 3 → short := fun hlt => by
    by_contra hlong
    have hheight := hframes hlong
    have hpos := he.height_pos
    omega
  match frames with
  | 0 | 1 | 2 => exact keeps_throw (.outOfFrames (hfew (by decide)))
  | n + 3 => exact h henv limit n depth hframes

/-- What has a kind by the rules is safe. -/
theorem HasKind.safe (h : HasKind g e k) : Safe failed short g e k := by
  induction h with
  | @letIn g pos x v b j k hv hb ihv ihb =>
    refine safe_of_rule (.letIn hv hb) fun henv limit n depth hframes => ?_
    rw [Node.height] at hframes
    refine keeps_letIn (ihv henv limit (n + 1) depth fun hlong => ?_) fun w hw => ?_
    · have := hframes hlong
      omega
    · refine ihb (henv.set x hw) limit (n + 1) depth fun hlong => ?_
      have := hframes hlong
      omega
  | @cond g pos c t e k hc ht he ihc iht ihe =>
    refine safe_of_rule (.cond hc ht he) fun henv limit n depth hframes => ?_
    rw [Node.height] at hframes
    have hbelow : ∀ m : Node, m.height ≤ max c.height (max t.height e.height) →
        ¬ short → 3 * m.height ≤ n + 1 := fun m hm hlong => by
      have := hframes hlong
      omega
    exact keeps_cond_kind (ihc henv limit (n + 1) depth (hbelow c (by omega)))
      (iht henv limit (n + 1) depth (hbelow t (by omega)))
      (ihe henv limit (n + 1) depth (hbelow e (by omega)))
  | @matching g pos s cs j k hs hne hwild hcs ihs ihcs =>
    refine safe_of_rule (.matching hs hne hwild hcs) fun henv limit n depth hframes => ?_
    obtain ⟨⟨p, e⟩, cs, rfl⟩ := List.exists_cons_of_ne_nil hne
    obtain ⟨q, rfl⟩ := hwild _ (List.mem_cons_self ..)
    simp only [Node.height, Node.casesHeight] at hframes
    refine keeps_matching (ihs henv limit (n + 1) depth fun hlong => ?_) (.wildcard q) fun v _ => ?_
    · have := hframes hlong
      omega
    · refine ihcs _ (List.mem_cons_self ..) henv limit (n + 1) depth fun hlong => ?_
      have := hframes hlong
      dsimp only
      omega
  | @binary g pos o l r j k hl hr ho ihl ihr =>
    refine safe_of_rule (.binary hl hr ho) fun henv limit n depth hframes => ?_
    rw [Node.height] at hframes
    have hbelow : ∀ m : Node, m.height ≤ max l.height r.height → ¬ short → 3 * m.height ≤ n :=
      fun m hm hlong => by
        have := hframes hlong
        omega
    exact keeps_binary_kind ho (ihl henv limit n depth (hbelow l (by omega)))
      (ihr henv limit n depth (hbelow r (by omega)))
  | @unary g pos o e k he ho ih =>
    refine safe_of_rule (.unary he ho) fun henv limit n depth hframes => ?_
    rw [Node.height] at hframes
    refine keeps_unary_kind ho (ih henv limit n depth fun hlong => ?_)
    have := hframes hlong
    omega
  | intLit => exact safe_of_rule .intLit fun _ _ _ _ _ => keeps_pure rfl
  | floatLit => exact safe_of_rule .floatLit fun _ _ _ _ _ => keeps_pure rfl
  | stringLit => exact safe_of_rule .stringLit fun _ _ _ _ _ => keeps_pure rfl
  | charLit => exact safe_of_rule .charLit fun _ _ _ _ _ => keeps_pure rfl
  | @ident g pos x k hx =>
    refine safe_of_rule (.ident hx) fun henv limit n depth _ => ?_
    rcases henv.get x k hx with ⟨v, hv, hkind⟩ | ⟨hnone, hfailed⟩
    · exact keeps_ident (fun w hw => Option.some_inj.mp (hv.symm.trans hw) ▸ hkind) fun hnone => by
        rw [hv] at hnone
        cases hnone
    · exact keeps_ident (fun w hw => by rw [hnone] at hw; cases hw) fun _ => .undefined pos x hfailed

/-- Where an expression comes to a value, that is of its kind, and the environment is as it was. -/
theorem HasKind.eval_ok {limit : Int} {frames depth : Nat} {env env' : Env} {v : Value}
    (h : HasKind g e k) (henv : EnvKinded failed g env)
    (hrun : eval limit frames depth e env = .ok v env') : env' = env ∧ v.kind = k := by
  have hkeeps := h.safe henv limit frames depth fun (hlong : ¬ True) => absurd trivial hlong
  rw [Keeps, hrun] at hkeeps
  exact hkeeps

end

/-! ## No value of the wrong kind -/

namespace Point

variable {limit : Int} {failed : String → Prop} {p q : Point}

/-- The evaluation of an operator, a sign or a condition comes to an operand of a kind that it does not take,
or to operands of different kinds. -/
inductive Misapplied (limit : Int) : Point → Prop
  | condition {n depth : Nat} {env env' : Env} {pos : Pos} {c t e : Node} {v : Value} :
    eval limit (n + 1) depth c env = .ok v env' → v.kind ≠ .int →
    Misapplied limit ⟨n + 3, depth, env, .cond pos c t e⟩
  | left {n depth : Nat} {env env' : Env} {pos : Pos} {o : String} {l r : Node} {v : Value} :
    eval limit n depth l env = .ok v env' → (∀ k, ¬ Takes o v.kind k) →
    Misapplied limit ⟨n + 3, depth, env, .binary pos o l r⟩
  | right {n depth : Nat} {env env' env'' : Env} {pos : Pos} {o : String} {l r : Node} {v w : Value} :
    eval limit n depth l env = .ok v env' → eval limit n depth r env' = .ok w env'' → w.kind ≠ v.kind →
    Misapplied limit ⟨n + 3, depth, env, .binary pos o l r⟩
  | sign {n depth : Nat} {env env' : Env} {pos : Pos} {o : String} {e : Node} {v : Value} :
    eval limit n depth e env = .ok v env' → ¬ TakesSign o v.kind →
    Misapplied limit ⟨n + 3, depth, env, .unary pos o e⟩

/-- The evaluation of an expression, or of a declaration of one, that has a kind by the rules. -/
inductive Kinded (failed : String → Prop) : Point → Prop
  | expression {frames depth : Nat} {env : Env} {g : Kinding} {e : Node} {k : Kind} :
    HasKind g e k → EnvKinded failed g env → Kinded failed ⟨frames, depth, env, e⟩
  | letDecl {frames depth : Nat} {env : Env} {g : Kinding} {pos : Pos} {x : String} {v : Node} {k : Kind} :
    HasKind g v k → EnvKinded failed g env → Kinded failed ⟨frames, depth, env, .letDecl pos x v⟩
  | exprStmt {frames depth : Nat} {env : Env} {g : Kinding} {pos : Pos} {e : Node} {k : Kind} :
    HasKind g e k → EnvKinded failed g env → Kinded failed ⟨frames, depth, env, .exprStmt pos e⟩

/-- What such an evaluation calls for is such an evaluation. -/
theorem Calls.kinded (h : Calls limit p q) (hp : p.Kinded failed) : q.Kinded failed := by
  cases h with
  | letDecl =>
    cases hp with
    | letDecl hv henv => exact .expression hv henv
    | expression he => cases he
  | exprStmt =>
    cases hp with
    | exprStmt he henv => exact .expression he henv
    | expression he => cases he
  | letValue =>
    cases hp with
    | expression he henv => cases he with | letIn hv hb => exact .expression hv henv
  | letBody hrun =>
    cases hp with
    | expression he henv =>
      cases he with
      | letIn hv hb =>
        obtain ⟨rfl, hw⟩ := hv.eval_ok henv hrun
        exact .expression hb (henv.set _ hw)
  | letRec => cases hp with | expression he henv => cases he
  | condition =>
    cases hp with
    | expression he henv => cases he with | cond hc ht he => exact .expression hc henv
  | branch hrun =>
    cases hp with
    | expression he henv =>
      cases he with
      | cond hc ht he =>
        obtain ⟨rfl, -⟩ := hc.eval_ok henv hrun
        split
        · exact .expression he henv
        · exact .expression ht henv
  | scrutinee =>
    cases hp with
    | expression he henv => cases he with | matching hs _ _ _ => exact .expression hs henv
  | case hrun =>
    cases hp with
    | expression he henv =>
      cases he with
      | matching hs _ hwild hcs =>
        obtain ⟨rfl, -⟩ := hs.eval_ok henv hrun
        obtain ⟨r, rfl⟩ := hwild _ (List.mem_cons_self ..)
        exact .expression (hcs _ (List.mem_cons_self ..)) henv
  | callee | argument | body => cases hp with | expression he henv => cases he
  | left =>
    cases hp with
    | expression he henv => cases he with | binary hl hr ho => exact .expression hl henv
  | right hrun =>
    cases hp with
    | expression he henv =>
      cases he with
      | binary hl hr ho =>
        obtain ⟨rfl, -⟩ := hl.eval_ok henv hrun
        exact .expression hr henv
  | operand =>
    cases hp with
    | expression he henv => cases he with | unary he ho => exact .expression he henv

/-- Nor does any of them give an operator, a sign or a condition what it does not take. -/
theorem Kinded.not_misapplied (hp : p.Kinded failed) : ¬ p.Misapplied limit := by
  intro h
  cases h with
  | condition hrun hne =>
    cases hp with
    | expression he henv => cases he with | cond hc ht he => exact hne (hc.eval_ok henv hrun).2
  | left hrun hne =>
    cases hp with
    | expression he henv =>
      cases he with
      | binary hl hr ho => exact hne _ ((hl.eval_ok henv hrun).2 ▸ ho)
  | right hrun hrun' hne =>
    cases hp with
    | expression he henv =>
      cases he with
      | binary hl hr ho =>
        obtain ⟨rfl, hv⟩ := hl.eval_ok henv hrun
        exact hne ((hr.eval_ok henv hrun').2.trans hv.symm)
  | sign hrun hne =>
    cases hp with
    | expression he henv => cases he with | unary he ho => exact hne ((he.eval_ok henv hrun).2 ▸ ho)

theorem Reaches.not_misapplied (h : Reaches limit p q) (hp : p.Kinded failed) : ¬ q.Misapplied limit := by
  have hq : q.Kinded failed := by
    induction h with
    | refl => exact hp
    | tail _ hcalls ih => exact hcalls.kinded ih
  exact hq.not_misapplied

end Point

/-! ## Declarations -/

/-- What is known between two declarations: the scopes are one frame of names of known kinds, and the
environment has values of these kinds, but for names in `failed`, and no others but of `_`. -/
structure Between (failed : String → Prop) (g : Kinding) (c : Context) (env : Env) : Prop where
  describes : Describes g c.scopes
  frame : ∃ f, c.scopes = [f]
  values : EnvKinded failed g env
  known : ∀ x, x ≠ "_" → g x = none → env.get? x = none

/-- A declaration came to a value of the kind that was found for it, under its name, or it failed of a division
by zero or for want of a name in `failed`; or for lack of frames, if there are few. -/
inductive Outcome.Meets (failed : String → Prop) (short : Prop) (b : String × Typing) : Outcome → Prop
  | result {r : Result} : r.name = b.1 → b.2 = some ⟨r.value.kind, []⟩ → Meets failed short b (.ok r)
  | byZero (pos : Pos) (remainder : Bool) : Meets failed short b (.error ⟨pos, .byZero remainder⟩)
  | undefined (pos : Pos) (x : String) : failed x → Meets failed short b (.error ⟨pos, .undefined x⟩)
  | stackOverflow (pos : Pos) (x : String) : short → Meets failed short b (.error ⟨pos, .stackOverflow x⟩)

section

variable {failed : String → Prop} {short : Prop} {g : Kinding} {c c' : Context} {env env' : Env}
  {limit : Int} {frames : Nat} {d : Node} {t : Typing} {x : String} {k : Kind}

theorem Between.start : Between failed (fun _ => none) ⟨.ofSeed [], []⟩ [] := by
  refine ⟨⟨fun _ => rfl, fun _ _ h => (by cases h)⟩, ⟨[], rfl⟩, ⟨fun _ _ h => (by cases h), rfl⟩, ?_⟩
  exact fun _ _ _ => rfl

/-- What the analysis has found of a declaration that it passed: a kind for what is declared or for what stands
on its own. -/
theorem FunctionFreeDeclaration.infer_kind {depth : Nat} (hd : FunctionFreeDeclaration d)
    (hg : Describes g c.scopes) (h : infer depth d c = .ok t c') :
    ∃ k ∈ basicKinds, t = some ⟨k, []⟩ ∧ ∃ e, HasKind g e k ∧ e.height < depth ∧
      ((∃ pos x, d = .letDecl pos x e ∧ c.scopes.declare x t = .ok c'.scopes) ∨
        ∃ pos, d = .exprStmt pos e ∧ c'.scopes = c.scopes) := by
  cases depth with
  | zero => cases h
  | succ depth =>
    cases hd with
    | @letDecl pos x v hv =>
      obtain ⟨tv, c₁, h₁, h₂⟩ := bind_eq_ok.mp h
      obtain ⟨_, c₂, h₂, h₃⟩ := bind_eq_ok.mp h₂
      cases h₃
      obtain ⟨k, hk, rfl, hv', hheight, hs⟩ := infer_kinds depth hv hg h₁
      obtain ⟨s, hs', rfl⟩ := declare_eq_ok.mp h₂
      exact ⟨k, hk, rfl, v, hv', Nat.lt_succ_of_le hheight, .inl ⟨pos, x, rfl, hs ▸ hs'⟩⟩
    | @exprStmt pos e he =>
      obtain ⟨k, hk, rfl, he', hheight, hs⟩ := infer_kinds depth he hg h
      exact ⟨k, hk, rfl, e, he', Nat.lt_succ_of_le hheight, .inr ⟨pos, rfl, hs⟩⟩

/-- A name that a frame on its own declares was not declared before. -/
theorem Between.fresh (h : Between failed g c env) {s : Scopes} (hx : c.scopes.declare x t = .ok s)
    (hne : x ≠ "_") : env.get? x = none := by
  obtain ⟨f, hf⟩ := h.frame
  refine h.known x hne ?_
  obtain ⟨heq, -⟩ | ⟨-, hopen, -⟩ := Scopes.declare_eq_ok.mp hx
  · exact absurd heq hne
  · have hnone : f.get? x = none := by
      rw [hf] at hopen
      exact Option.isSome_eq_false_iff.mp hopen |> Option.isNone_iff_eq_none.mp
    have hlookup := h.describes.lookup x
    rw [hf, Scopes.lookup?, hnone] at hlookup
    exact Option.map_eq_none_iff.mp hlookup.symm

/-- Declaring a name in a frame on its own leaves one frame. -/
theorem Between.declared (h : Between failed g c env) {s : Scopes} (hx : c.scopes.declare x t = .ok s) :
    ∃ f, s = [f] := by
  obtain ⟨f, hf⟩ := h.frame
  obtain ⟨-, rfl⟩ | ⟨-, -, rfl⟩ := Scopes.declare_eq_ok.mp hx
  · exact ⟨f, hf⟩
  · rw [hf]
    exact ⟨_, rfl⟩

theorem meets_value {v : Value} {o : Outcome} {name : String} (hname : d.name? = some name)
    (ho : Outcome.ofRun d (.ok v) = .ok o) (hv : v.kind = k) :
    o.Meets failed short (name, some ⟨k, []⟩) := by
  simp only [Outcome.ofRun, Outcome.ofRun.named, hname] at ho
  cases ho
  exact .result rfl (hv ▸ rfl)

theorem meets_failure {f : Failure} {o : Outcome} {b : String × Typing} {name : String}
    (hname : d.name? = some name) (ho : Outcome.ofRun d (.error f) = .ok o)
    (hf : f.Allowed failed short) : o.Meets failed short b := by
  cases hf with
  | byZero pos r =>
    cases ho
    exact .byZero pos r
  | noRemainder => cases ho
  | undefined pos x hx =>
    cases ho
    exact .undefined pos x hx
  | outOfFrames hshort =>
    simp only [Outcome.ofRun, Outcome.ofRun.named, hname] at ho
    cases ho
    exact .stackOverflow _ _ hshort

/-- One declaration: it comes to what it should, and what is known before it is known after it, with its name in
addition. If it fails, its name may be missing from then on. -/
theorem Between.step {depth : Nat} {res : Except Failure Value} {o : Outcome} {name : String}
    (h : Between failed g c env) (hd : FunctionFreeDeclaration d) (hinfer : infer depth d c = .ok t c')
    (hname : d.name? = some name) (heval : evaluated limit (frames + 3) d env = (res, env'))
    (ho : Outcome.ofRun d res = .ok o) (hframes : ¬ short → 3 * depth ≤ frames + 3) :
    o.Meets failed short (name, t) ∧
      ∃ g', Between (fun x => failed x ∨ d.declared? = some x ∧ ∃ f, o = .error f) g' c' env' := by
  obtain ⟨k, hk, rfl, e, he, hheight, hform⟩ := hd.infer_kind h.describes hinfer
  have hsafe : Keeps env (eval limit (frames + 1) 0 e) (OfKind k) (Failure.Allowed failed short) :=
    he.safe h.values limit (frames + 1) 0 fun hlong => by
      have := hframes hlong
      omega
  obtain ⟨pos, x, rfl, hx⟩ | ⟨pos, rfl, hs⟩ := hform
  · obtain ⟨v, rfl, rfl, hv⟩ | ⟨f, rfl, rfl, hf⟩ := evaluated_letDecl hsafe heval
    · refine ⟨meets_value hname ho hv, g.bind x k, h.describes.declare hk hx, h.declared hx, ?_, ?_⟩
      · exact (h.values.set x hv).mono fun _ => .inl
      · intro y hy hnone
        obtain ⟨hxy, hnone⟩ := Kinding.bind_eq_none hy hnone
        rw [Bindings.get?_set, if_neg hxy]
        exact h.known y hy hnone
    · obtain ⟨fault, rfl⟩ := ofRun_error ho
      refine ⟨meets_failure hname ho hf, g.bind x k, h.describes.declare hk hx, h.declared hx, ?_, ?_⟩
      · exact h.values.missing x k (fun _ => .inl) fun hne => ⟨h.fresh hx hne, .inr ⟨rfl, fault, rfl⟩⟩
      · exact fun y hy hnone => h.known y hy (Kinding.bind_eq_none hy hnone).2
  · have hbetween : ∀ failed' : String → Prop, (∀ y, failed y → failed' y) → Between failed' g c' env :=
      fun failed' hmono => ⟨hs ▸ h.describes, hs ▸ h.frame, h.values.mono hmono, h.known⟩
    obtain ⟨v, rfl, rfl, hv⟩ | ⟨f, rfl, rfl, hf⟩ := evaluated_exprStmt hsafe heval
    · exact ⟨meets_value hname ho hv, g, hbetween _ fun _ => .inl⟩
    · exact ⟨meets_failure hname ho hf, g, hbetween _ fun _ => .inl⟩

/-- The names of declarations in front of the one at `i` that failed. -/
def FailedBefore (ds : List Node) (os : List Outcome) (i : Nat) (x : String) : Prop :=
  ∃ j < i, ∃ d f, ds[j]? = some d ∧ d.declared? = some x ∧ os[j]? = some (.error f)

theorem FailedBefore.cons {ds : List Node} {os : List Outcome} {o : Outcome} {i : Nat}
    (h : FailedBefore ds os i x) : FailedBefore (d :: ds) (o :: os) (i + 1) x := by
  obtain ⟨j, hj, d', f, hd', hx, hf⟩ := h
  exact ⟨j + 1, Nat.succ_lt_succ hj, d', f, hd', hx, hf⟩

theorem Outcome.Meets.mono {failed' : String → Prop} {b : String × Typing} {o : Outcome}
    (h : o.Meets failed short b) (hmono : ∀ x, failed x → failed' x) : o.Meets failed' short b := by
  cases h with
  | result hname hkind => exact .result hname hkind
  | byZero pos r => exact .byZero pos r
  | undefined pos x hx => exact .undefined pos x (hmono x hx)
  | stackOverflow pos x hshort => exact .stackOverflow pos x hshort

/-- Declarations one after the other. -/
theorem Lockstep.meets {ds : List Node} {bs : List (String × Typing)} {os : List Outcome}
    (h : Lockstep limit (frames + 3) c env ds bs os env') (hds : ∀ d ∈ ds, FunctionFreeDeclaration d)
    (hstart : Between failed g c env) (hframes : ¬ short → 3 * analysisDepth ≤ frames + 3) (i : Nat)
    {b : String × Typing} {o : Outcome} (hb : bs[i]? = some b) (ho : os[i]? = some o) :
    o.Meets (fun x => failed x ∨ FailedBefore ds os i x) short b := by
  induction h generalizing failed g i with
  | nil => cases hb
  | @cons c c₁ env env₁ env' d ds name t bs res o₁ os hinfer hname heval ho₁ _ ih =>
    obtain ⟨hd, hds⟩ := List.forall_mem_cons.mp hds
    obtain ⟨hmeets, g', hnext⟩ := hstart.step hd hinfer hname heval ho₁ hframes
    cases i with
    | zero =>
      cases hb
      cases ho
      exact hmeets.mono fun _ => .inl
    | succ i =>
      refine (ih hds hnext i hb ho).mono fun x hx => ?_
      rcases hx with (hx | ⟨hdx, f, rfl⟩) | hx
      · exact .inl hx
      · exact .inr ⟨0, Nat.succ_pos i, d, f, rfl, hdx, rfl⟩
      · exact .inr hx.cons

/-- The types of declarations without functions that pass the analysis are of basic kinds. -/
theorem declarations_basic {depth : Nat} {ds : List Node} {bs : List (String × Typing)}
    {ws : List (Located Warning)} (hds : ∀ d ∈ ds, FunctionFreeDeclaration d) (hg : Describes g c.scopes)
    (h : Analysis.declarations depth c ds = .ok (bs, [], ws)) :
    (∀ d ∈ ds, IsDeclaration d) ∧ ∀ b ∈ bs, ∃ k ∈ basicKinds, b.2 = some ⟨k, []⟩ := by
  induction ds generalizing c bs g with
  | nil =>
    cases h
    exact ⟨nofun, nofun⟩
  | cons d ds ih =>
    obtain ⟨hd, hds⟩ := List.forall_mem_cons.mp hds
    obtain ⟨t, c', name, bs', hinfer, -, rfl, hrest⟩ := declarations_cons h
    obtain ⟨k, hk, rfl, e, he, -, hform⟩ := hd.infer_kind hg hinfer
    obtain ⟨hdecl, g', hg'⟩ : IsDeclaration d ∧ ∃ g', Describes g' c'.scopes := by
      obtain ⟨pos, x, rfl, hx⟩ | ⟨pos, rfl, hs⟩ := hform
      · exact ⟨.letDecl pos x he.isExpression, _, hg.declare hk hx⟩
      · exact ⟨.exprStmt pos he.isExpression, g, hs ▸ hg⟩
    obtain ⟨hdecls, hbs⟩ := ih hds hg' hrest
    exact ⟨List.forall_mem_cons.mpr ⟨hdecl, hdecls⟩, List.forall_mem_cons.mpr ⟨⟨k, hk, rfl⟩, hbs⟩⟩

/-- No declaration that is evaluated calls for an evaluation with a value of the wrong kind. -/
theorem declarations_not_misapplied {ds before after : List Node} {bs : List (String × Typing)}
    {ws : List (Located Warning)} {os : List Outcome} (hds : ∀ d ∈ ds, FunctionFreeDeclaration d)
    (hstart : Between failed g c env) (h : Analysis.declarations analysisDepth c ds = .ok (bs, [], ws))
    (hsplit : ds = before ++ d :: after) (hrun : evaluateWithin (frames + 3) limit before env = .ok (os, env'))
    {q : Point} (hq : Point.Reaches limit ⟨frames + 3, 0, env', d⟩ q) : ¬ q.Misapplied limit := by
  induction before generalizing ds c bs os env failed g with
  | nil =>
    subst hsplit
    cases hrun
    obtain ⟨hd, -⟩ := List.forall_mem_cons.mp hds
    obtain ⟨t, c', name, bs', hinfer, -, -, -⟩ := declarations_cons h
    obtain ⟨k, hk, rfl, e, he, -, hform⟩ := hd.infer_kind hstart.describes hinfer
    have hkinded : Point.Kinded failed ⟨frames + 3, 0, env', d⟩ := by
      obtain ⟨pos, x, rfl, -⟩ | ⟨pos, rfl, -⟩ := hform
      · exact .letDecl he hstart.values
      · exact .exprStmt he hstart.values
    exact hq.not_misapplied hkinded
  | cons d' before ih =>
    subst hsplit
    obtain ⟨hd, hds⟩ := List.forall_mem_cons.mp hds
    obtain ⟨t, c', name, bs', hinfer, hname, -, hrest⟩ := declarations_cons h
    obtain ⟨res, env₁, o, os', heval, ho, -, hlater⟩ := evaluateWithin_cons hrun
    obtain ⟨-, g', hnext⟩ := hstart.step hd hinfer hname heval ho fun (hlong : ¬ True) => absurd trivial hlong
    exact ih hds hnext hrest rfl hlater

end

theorem frameBudget_le {limit : Int} (hlimit : 0 < limit) : ∃ n, frameBudget limit = n + 3 := by
  refine Nat.exists_eq_add_of_le' ?_
  unfold frameBudget
  omega

/-- A program without functions that passes the analysis, without surroundings, has types of basic kinds only.
It is evaluated to the end, unless floating point lacks a remainder; then each declaration comes to a value of
the kind that is its type, or to a fault: a division by zero, or a name that is missing since its declaration
in front failed. Whole numbers are never too large for floating point, as they do not meet any. The stack does
not overflow under a limit of 60 nested applications or more, which leaves room above what the analysis passes.
And in all of this, no operator, sign or condition is given a value of the wrong kind. -/
theorem function_free_sound (ds : List Node) (hds : ∀ d ∈ ds, FunctionFreeDeclaration d) (a : Analysis)
    (ha : analyze ds [] = .ok a) (hok : a.ok = true) :
    (∀ b ∈ a.bindings, ∃ k ∈ basicKinds, b.2 = some ⟨k, []⟩) ∧
      ∀ limit, 0 < limit → 1000 + 10 * limit < Int.pow 2 31 →
        (evaluate limit ds [] = .error .noRemainder ∨
          ∃ os env, evaluate limit ds [] = .ok (os, env) ∧ a.bindings.length = ds.length ∧
            os.length = ds.length ∧ ∀ i b (o : Outcome), a.bindings[i]? = some b → os[i]? = some o →
              o.Meets (FailedBefore ds os i) (limit < 60) b) ∧
        ∀ before d after os env (q : Point), ds = before ++ d :: after → evaluate limit before [] = .ok (os, env) →
          Point.Reaches limit ⟨frameBudget limit, 0, env, d⟩ q → ¬ q.Misapplied limit := by
  obtain ⟨ws, hdecl⟩ := analyze_eq_ok ha hok
  have hstart : Between (fun _ => False) (fun _ => none) ⟨.ofSeed [], []⟩ [] := .start
  obtain ⟨hdecls, hbasic⟩ := declarations_basic hds hstart.describes hdecl
  refine ⟨hbasic, fun limit hlimit hlarge => ?_⟩
  obtain ⟨frames, hframes⟩ := frameBudget_le hlimit
  have hlong : ¬ limit < 60 → 3 * analysisDepth ≤ frames + 3 := fun hlong => by
    rw [← hframes, frameBudget, analysisDepth]
    omega
  constructor
  · rw [evaluate_eq hlimit hlarge, hframes]
    have hnothing : EnvMade [] := fun x v hx => by cases hx
    refine (evaluateWithin_cases hdecls hnothing).symm.imp_right fun ⟨os, env, hrun, _, _⟩ => ?_
    have hsteps := lockstep_of_run hdecl hrun
    refine ⟨os, env, hrun, hsteps.lengths.1, hsteps.lengths.2, fun i b o hb ho => ?_⟩
    exact (hsteps.meets hds hstart hlong i hb ho).mono fun x hx => hx.resolve_left id
  · intro before d after os env q hsplit hrun hq
    rw [evaluate_eq hlimit hlarge, hframes] at hrun
    rw [hframes] at hq
    exact declarations_not_misapplied hds hstart hdecl hsplit hrun hq

/-- The trees of `let x = let x = 0 in 1 / x;;` and, on a line of its own,
`if x < 2 then 0.5 else -. 0.5;;`. -/
def divisionShadowed : List Node :=
  [.letDecl ⟨1, 1⟩ "x" (.letIn ⟨1, 9⟩ "x" (.intLit ⟨1, 17⟩ 0)
      (.binary ⟨1, 22⟩ "/" (.intLit ⟨1, 22⟩ 1) (.ident ⟨1, 26⟩ "x")) false),
    .exprStmt ⟨2, 1⟩ (.cond ⟨2, 1⟩ (.binary ⟨2, 4⟩ "<" (.ident ⟨2, 4⟩ "x") (.intLit ⟨2, 8⟩ 2))
      (.floatLit ⟨2, 15⟩ 0.5) (.unary ⟨2, 24⟩ "-." (.floatLit ⟨2, 27⟩ 0.5)))]

/-- The first declaration fails of a division, and the second for want of the name. -/
theorem function_free_sound_shadowed :
    ∃ a os env, analyze divisionShadowed [] = .ok a ∧ a.ok = true ∧
      a.bindings = [("x", some .int), ("-", some .float)] ∧
      evaluate defaultLimit divisionShadowed [] = .ok (os, env) ∧
      os.filterMap Outcome.fault? = [⟨⟨1, 22⟩, .byZero false⟩, ⟨⟨2, 4⟩, .undefined "x"⟩] ∧
      ∀ i b (o : Outcome), a.bindings[i]? = some b → os[i]? = some o →
        o.Meets (FailedBefore divisionShadowed os i) (defaultLimit < 60) b := by
  have hfree : ∀ d ∈ divisionShadowed, FunctionFreeDeclaration d := by
    refine List.forall_mem_cons.mpr ⟨.letDecl _ _ (.letIn _ _ (.intLit ..) (.binary _ _ ?_ ?_)), ?_⟩
    · exact .intLit ..
    · exact .ident ..
    · refine List.forall_mem_singleton.mpr (.exprStmt _ (.cond _ (.binary _ _ ?_ ?_) (.floatLit ..) ?_))
      · exact .ident ..
      · exact .intLit ..
      · exact .unary _ _ (.floatLit ..)
  have hanalysis : (analyze divisionShadowed []).toOption.map (fun a => (a.ok, a.bindings)) =
      some (true, [("x", some .int), ("-", some .float)]) := by decide +kernel
  have hevaluation : (evaluate defaultLimit divisionShadowed []).toOption.map
      (fun q => q.1.filterMap Outcome.fault?) = some [⟨⟨1, 22⟩, .byZero false⟩, ⟨⟨2, 4⟩, .undefined "x"⟩] := by
    decide +kernel
  obtain ⟨a, ha, heq⟩ := Option.map_eq_some_iff.mp hanalysis
  obtain ⟨hok, hbindings⟩ := Prod.mk.inj heq
  obtain ⟨⟨os, env⟩, heval, hfaults⟩ := Option.map_eq_some_iff.mp hevaluation
  have ha := toOption_eq_some.mp ha
  have heval := toOption_eq_some.mp heval
  refine ⟨a, os, env, ha, hok, hbindings, heval, hfaults, ?_⟩
  obtain ⟨-, hsound⟩ := function_free_sound divisionShadowed hfree a ha hok
  obtain ⟨hcrash | ⟨os', env', heval', -, -, hmeets⟩, -⟩ := hsound defaultLimit (by decide) (by decide)
  · rw [heval] at hcrash
    cases hcrash
  · obtain ⟨rfl, rfl⟩ := Prod.mk.inj (Except.ok.inj (heval.symm.trans heval'))
    exact hmeets

end Camlet
