import Camlet.Evaluation.Basic
import Camlet.Proofs.Names
import Camlet.Proofs.Stateful

/-
  Values that are similar: equal, but for what closures hold under names that their bodies do not want. The
  evaluation of a node does not tell environments apart that are similar under the names which the node wants:
  it comes to similar values, or it fails in the same way. Whatever else an environment binds, every closure
  that is made in it captures, but never uses.
-/

namespace Camlet

open Stateful

/-- Values that are equal but for what closures hold beyond the names that their bodies want. -/
inductive Value.Similar : Value → Value → Prop
  | int (n : Int) : Similar (.int n) (.int n)
  | float (x : Float) : Similar (.float x) (.float x)
  | string (s : String) : Similar (.string s) (.string s)
  | char (s : String) : Similar (.char s) (.char s)
  | closure (self : Option String) (param : String) (body : Node) {held held' : Env} :
    (∀ x ∈ body.wanted, x ≠ param → self ≠ some x → held.has x = held'.has x) →
    (∀ x ∈ body.wanted, x ≠ param → self ≠ some x →
      ∀ v w, held.get? x = some v → held'.get? x = some w → Similar v w) →
    Similar (.closure self param body held) (.closure self param body held')

/-- Environments that both lack a name, or bind it to similar values. -/
structure SimilarAt (env env' : Env) (x : String) : Prop where
  has : env.has x = env'.has x
  get : ∀ v w, env.get? x = some v → env'.get? x = some w → v.Similar w

/-- Environments that are similar at the names of which `N` holds. -/
def EnvSimilar (N : String → Prop) (env env' : Env) : Prop := ∀ x, N x → SimilarAt env env' x

namespace Value.Similar

variable {v w : Value}

theorem kind (h : v.Similar w) : v.kind = w.kind := by
  cases h <;> rfl

theorem render (h : v.Similar w) : v.render = w.render := by
  cases h <;> rfl

theorem number? (h : v.Similar w) : Eval.number? v = Eval.number? w := by
  cases h <;> rfl

theorem ofNum (a : Num) : (Eval.ofNum a).Similar (Eval.ofNum a) := by
  cases a with
  | int n => exact .int n
  | float x => exact .float x

end Value.Similar

theorem sizeOf_get? {env : Env} {x : String} {v : Value} (h : env.get? x = some v) :
    sizeOf v < sizeOf env := by
  induction env with
  | nil => cases h
  | cons e env ih =>
    obtain ⟨y, w⟩ := e
    rw [Bindings.get?] at h
    split at h
    · cases h
      simp only [List.cons.sizeOf_spec, Prod.mk.sizeOf_spec]
      omega
    · have := ih h
      simp only [List.cons.sizeOf_spec]
      omega

/-- Every value is similar to itself. -/
theorem Value.Similar.refl : (v : Value) → v.Similar v
  | .int n => .int n
  | .float x => .float x
  | .string s => .string s
  | .char s => .char s
  | .closure self param body held => by
    refine .closure self param body (fun _ _ _ _ => rfl) fun x _ _ _ v w hv hw => ?_
    obtain rfl : v = w := Option.some_inj.mp (hv.symm.trans hw)
    have := sizeOf_get? hv
    exact Value.Similar.refl v
termination_by v => sizeOf v
decreasing_by
  simp only [Value.closure.sizeOf_spec]
  omega

namespace SimilarAt

variable {env env' : Env} {x : String}

/-- Environments that agree on a name are similar at it. -/
theorem of_eq (h : env.get? x = env'.get? x) : SimilarAt env env' x := by
  refine ⟨congrArg Option.isSome h, fun v w hv hw => ?_⟩
  obtain rfl : v = w := Option.some_inj.mp (hv.symm.trans (h.trans hw))
  exact .refl v

/-- What one of them binds the other binds similarly. -/
theorem bound (h : SimilarAt env env' x) {v : Value} (hx : env.get? x = some v) :
    ∃ w, env'.get? x = some w ∧ v.Similar w := by
  have hhas := h.has
  rw [Bindings.has, Bindings.has, hx, Option.isSome_some] at hhas
  obtain ⟨w, hw⟩ := Option.isSome_iff_exists.mp hhas.symm
  exact ⟨w, hw, h.get v w hx hw⟩

theorem unbound (h : SimilarAt env env' x) (hx : env.get? x = none) : env'.get? x = none := by
  have hhas := h.has
  rw [Bindings.has, hx] at hhas
  exact Option.isNone_iff_eq_none.mp (Option.isSome_eq_false_iff.mp hhas.symm)

theorem set_same {v w : Value} (h : v.Similar w) (x : String) : SimilarAt (env.set x v) (env'.set x w) x := by
  refine ⟨by simp [Bindings.has, Bindings.get?_set], fun v' w' hv hw => ?_⟩
  rw [Bindings.get?_set, if_pos rfl] at hv hw
  cases hv
  cases hw
  exact h

theorem set_other {y : String} (h : SimilarAt env env' x) (hne : y ≠ x) (v w : Value) :
    SimilarAt (env.set y v) (env'.set y w) x := by
  refine ⟨?_, fun v' w' hv hw => ?_⟩
  · simp only [Bindings.has, Bindings.get?_set, hne, if_false]
    exact h.has
  · rw [Bindings.get?_set, if_neg hne] at hv hw
    exact h.get v' w' hv hw

end SimilarAt

namespace EnvSimilar

variable {N M : String → Prop} {env env' : Env}

theorem mono (h : EnvSimilar N env env') (hM : ∀ x, M x → N x) : EnvSimilar M env env' :=
  fun x hx => h x (hM x hx)

/-- Where both bind a name to similar values, they are similar at that name as well. -/
theorem set {x : String} {v w : Value} (h : EnvSimilar N env env') (hvw : v.Similar w)
    (hM : ∀ y, M y → y = x ∨ N y) : EnvSimilar M (env.set x v) (env'.set x w) := by
  intro y hy
  by_cases hyx : x = y
  · exact hyx ▸ .set_same hvw x
  · exact (h y ((hM y hy).resolve_left (Ne.symm hyx))).set_other hyx v w

/-- Closures that are made in environments that are similar at the names which the body wants. -/
theorem closure {self : Option String} {param : String} {body : Node} (h : EnvSimilar N env env')
    (hN : ∀ x ∈ body.wanted, x ≠ param → self ≠ some x → N x) :
    Value.Similar (.closure self param body env) (.closure self param body env') :=
  .closure self param body (fun x hx hp hs => (h x (hN x hx hp hs)).has)
    fun x hx hp hs => (h x (hN x hx hp hs)).get

/-- The environments in which the bodies of similar closures are evaluated. -/
theorem callEnv {self : Option String} {param : String} {body : Node} {f g a b : Value}
    (h : ∀ x ∈ body.wanted, x ≠ param → self ≠ some x → SimilarAt env env' x) (hf : f.Similar g)
    (ha : a.Similar b) :
    EnvSimilar (· ∈ body.wanted) (Eval.callEnv f self param env a) (Eval.callEnv g self param env' b) := by
  intro x hx
  by_cases hp : param = x
  · exact hp ▸ .set_same ha param
  · refine SimilarAt.set_other ?_ hp a b
    cases self with
    | none => exact h x hx (Ne.symm hp) nofun
    | some name =>
      by_cases hs : name = x
      · exact hs ▸ .set_same hf name
      · exact (h x hx (Ne.symm hp) fun heq => hs (Option.some_inj.mp heq)).set_other hs f g

end EnvSimilar

namespace Eval

/-- The two steps end in the same way, with similar values, in environments that are similar at the names of
which `N` holds. -/
abbrev Matching (N : String → Prop) (x y : Eval Value) : Prop :=
  Matches (EnvSimilar N) x y Value.Similar (EnvSimilar N) (EnvSimilar N)

/-- Nodes evaluate alike where environments are similar at the names that they want. -/
def Steady (eval : Node → Eval Value) : Prop :=
  ∀ n (N : String → Prop), (∀ x ∈ n.wanted, N x) → Matching N (eval n) (eval n)

variable {N M : String → Prop}

theorem matches_within {env env' : Env} {x y : Eval Value} (henv : EnvSimilar M env env')
    (h : Matching M x y) : Matching N (within env x) (within env' y) := by
  intro s t hst
  have hend := h env env' henv
  unfold within
  generalize x env = p, y env' = q at hend ⊢
  cases hend with
  | ok hvw => exact .ok hvw hst
  | error => exact .error hst

theorem matches_bind {v w : Value} (h : v.Similar w) (x : String) :
    Matches (EnvSimilar N) (Eval.bind x v) (Eval.bind x w) (fun _ _ => True) (EnvSimilar N) (EnvSimilar N) :=
  fun _ _ hst => .ok trivial (hst.set h fun _ hy => .inr hy)

/-! ## One lemma for each rule -/

section

variable {near far body : Node → Eval Value} {pos : Pos}

theorem matches_operand (hfar : Steady far) {o : String} {n : Node} (hN : ∀ x ∈ n.wanted, N x) :
    Matches (EnvSimilar N) (operand far o n) (operand far o n) Eq (EnvSimilar N) (EnvSimilar N) := by
  refine (hfar n N hN).bind fun v w hvw => ?_
  rw [hvw.number?, hvw.kind]
  cases number? w with
  | some a => exact matches_pure rfl
  | none => exact matches_throw

theorem matches_computed {o : String} {r : Except NumFault Num} :
    Matching N (computed pos o r) (computed pos o r) := by
  cases r with
  | ok a => exact matches_pure (.ofNum a)
  | error e => cases e <;> exact matches_throw

theorem matches_letDecl (hnear : Steady near) {x : String} {v : Node} (hN : ∀ y ∈ v.wanted, N y) :
    Matching N (letDecl near x v) (letDecl near x v) :=
  (hnear v N hN).bind fun _ _ hvw => (matches_bind hvw x).bind fun _ _ _ => matches_pure hvw

theorem matches_funDecl {x : String} {ps : List String} {b : Node} {r : Bool}
    (hN : ∀ y ∈ Node.wanted (.funDecl pos x ps b r), N y) :
    Matching N (funDecl pos x ps b r) (funDecl pos x ps b r) := by
  cases ps with
  | nil => exact matches_throw
  | cons p ps =>
    refine matches_get fun env env' henv => ?_
    have hclosure : Value.Similar (.closure (if r then some x else none) p (.curry pos ps b) env)
        (.closure (if r then some x else none) p (.curry pos ps b) env') := by
      refine henv.closure fun y hy hp hs => hN y ?_
      rw [Node.wanted_curry] at hy
      have hparams : y ∈ (p :: ps).foldr Node.hidden b.wanted :=
        Node.mem_hidden.mpr ⟨hy, fun heq => absurd heq hp⟩
      cases r with
      | false => exact hparams
      | true => exact Node.mem_hidden.mpr ⟨hparams, fun heq => absurd (congrArg some heq.symm) hs⟩
    exact (matches_bind hclosure x).bind fun _ _ _ => matches_pure hclosure

theorem matches_recursiveValue {x : String} {v : Node} (hN : ∀ y ∈ Node.hidden x v.wanted, N y) :
    Matching N (recursiveValue x v) (recursiveValue x v) := by
  cases v with
  | lambda q p b =>
    refine matches_get fun env env' henv => matches_pure (henv.closure fun y hy hp hs => hN y ?_)
    refine Node.mem_hidden.mpr ⟨Node.mem_hidden.mpr ⟨hy, fun heq => absurd heq hp⟩, fun heq => ?_⟩
    exact absurd (congrArg some heq.symm) hs
  | _ => exact matches_throw

/-- A body is evaluated in an environment in which one name more is similar. -/
theorem matches_scoped (hnear : Steady near) {x : String} {b : Node} (hN : ∀ y ∈ Node.hidden x b.wanted, N y)
    {v w : Value} (hvw : v.Similar w) :
    Matching N (get >>= fun env => within (env.set x v) (near b))
      (get >>= fun env => within (env.set x w) (near b)) := by
  refine matches_get fun env env' henv => ?_
  have hset : EnvSimilar (fun y => y = x ∨ N y) (env.set x v) (env'.set x w) := henv.set hvw fun _ hy => hy
  refine matches_within hset (hnear b _ fun y hy => ?_)
  by_cases hyx : y = x
  · exact .inl hyx
  · exact .inr (hN y (Node.mem_hidden.mpr ⟨hy, fun heq => absurd heq hyx⟩))

theorem matches_letIn (hnear : Steady near) {x : String} {v b : Node} {r : Bool}
    (hN : ∀ y ∈ Node.wanted (.letIn pos x v b r), N y) :
    Matching N (letIn near x v b r) (letIn near x v b r) := by
  rw [Node.wanted, List.forall_mem_append] at hN
  obtain ⟨hv, hb⟩ := hN
  cases r with
  | false => exact Matches.bind (hnear v N hv) fun _ _ hvw => matches_scoped hnear hb hvw
  | true => exact (matches_recursiveValue hv).bind fun _ _ hvw => matches_scoped hnear hb hvw

theorem matches_cond (hnear : Steady near) {c t e : Node} (hN : ∀ y ∈ Node.wanted (.cond pos c t e), N y) :
    Matching N (Eval.cond near c t e) (Eval.cond near c t e) := by
  rw [Node.wanted, List.forall_mem_append, List.forall_mem_append] at hN
  obtain ⟨⟨hc, ht⟩, he⟩ := hN
  refine (hnear c N hc).bind fun v w hvw => ?_
  rw [hvw.number?, hvw.kind]
  cases number? w with
  | none => exact matches_throw
  | some a =>
    dsimp only
    split
    · exact hnear e N he
    · exact hnear t N ht

theorem matches_cases (hnear : Steady near) {v w : Value} (hvw : v.Similar w) {cs : List (Node × Node)}
    (hN : ∀ y ∈ Node.casesWanted cs, N y) : Matching N (cases near pos v cs) (cases near pos w cs) := by
  induction cs with
  | nil =>
    unfold Eval.cases
    rw [hvw.render]
    cases w.render <;> exact matches_throw
  | cons c cs ih =>
    obtain ⟨p, e⟩ := c
    rw [Node.casesWanted, List.forall_mem_append] at hN
    obtain ⟨he, hcs⟩ := hN
    cases p with
    | wildcard => exact hnear e N he
    | bind _ x => exact matches_scoped hnear he hvw
    | _ => exact ih hcs

theorem matches_matching (hnear : Steady near) {s : Node} {cs : List (Node × Node)}
    (hN : ∀ y ∈ Node.wanted (.matching pos s cs), N y) :
    Matching N (matching near pos s cs) (matching near pos s cs) := by
  rw [Node.wanted, List.forall_mem_append] at hN
  exact (hnear s N hN.1).bind fun _ _ hvw => matches_cases hnear hvw hN.2

theorem matches_apply (hnear : Steady near) (hbody : Steady body) {limit : Int} {depth : Nat} {f a : Node}
    (hN : ∀ y ∈ Node.wanted (.apply pos f a), N y) :
    Matching N (apply near body limit depth pos f a) (apply near body limit depth pos f a) := by
  rw [Node.wanted, List.forall_mem_append] at hN
  refine (hnear f N hN.1).bind fun v w hvw => ?_
  cases hvw with
  | closure self p code hhas hget =>
    refine (hnear a N hN.2).bind fun u u' hu => ?_
    split
    · exact matches_throw
    · refine matches_within (EnvSimilar.callEnv (fun x hx hp hs => ⟨hhas x hx hp hs, hget x hx hp hs⟩)
        (.closure self p code hhas hget) hu) (hbody code _ fun _ hx => hx)
  | int | float | string | char => exact matches_throw

theorem matches_binary (hfar : Steady far) {o : String} {l r : Node}
    (hN : ∀ y ∈ Node.wanted (.binary pos o l r), N y) :
    Matching N (binary far pos o l r) (binary far pos o l r) := by
  rw [Node.wanted, List.forall_mem_append] at hN
  have hright := matches_operand (o := o) hfar hN.2
  refine (matches_operand hfar hN.1).bind fun a b hab => ?_
  subst hab
  have hlogical : Matching N (operand far o r >>= fun b => pure (ofNum (.ofBool !b.isZero)))
      (operand far o r >>= fun b => pure (ofNum (.ofBool !b.isZero))) :=
    hright.bind fun b b' hb => hb ▸ matches_pure (.ofNum _)
  split
  · split
    · exact matches_pure (.ofNum _)
    · exact hlogical
  · split
    · split
      · exact hlogical
      · exact matches_pure (.ofNum _)
    · exact hright.bind fun b b' hb => hb ▸ matches_computed

theorem matches_unary (hfar : Steady far) {o : String} {n : Node} (hN : ∀ y ∈ n.wanted, N y) :
    Matching N (unary far pos o n) (unary far pos o n) :=
  (matches_operand hfar hN).bind fun _ _ ha => ha ▸ matches_computed

theorem matches_ident {x : String} (hN : N x) : Matching N (ident pos x) (ident pos x) := by
  refine matches_get fun env env' henv => ?_
  cases hx : env.get? x with
  | none =>
    rw [(henv x hN).unbound hx]
    exact matches_throw
  | some v =>
    obtain ⟨w, hw, hvw⟩ := (henv x hN).bound hx
    rw [hw]
    exact matches_pure hvw

end

end Eval

/-- Nodes evaluate alike in environments that are similar at the names which they want. -/
theorem eval_steady (limit : Int) (frames depth : Nat) : Eval.Steady (eval limit frames depth) := by
  -- On the frames that are left, as the body of a closure is no part of the node that applies it.
  induction frames using Nat.strongRecOn generalizing depth with
  | ind frames ih =>
    intro n N hN
    match frames with
    | 0 | 1 | 2 => exact matches_throw
    | k + 3 =>
      have hnear : Eval.Steady (eval limit (k + 1) depth) := ih (k + 1) (by omega) depth
      have hfar : Eval.Steady (eval limit k depth) := ih k (by omega) depth
      have hbody : Eval.Steady (eval limit k (depth + 1)) := ih k (by omega) (depth + 1)
      cases n with
      | wildcard | bind | program => exact matches_throw
      | letDecl pos x v => exact Eval.matches_letDecl hnear hN
      | funDecl pos x ps b r => exact Eval.matches_funDecl hN
      | exprStmt pos e => exact hnear e N hN
      | letIn pos x v b r => exact Eval.matches_letIn hnear hN
      | cond pos c t e => exact Eval.matches_cond hnear hN
      | matching pos s cs => exact Eval.matches_matching hnear hN
      | lambda pos p b =>
        refine matches_get fun env env' henv => matches_pure (henv.closure fun y hy hp _ => hN y ?_)
        exact Node.mem_hidden.mpr ⟨hy, fun heq => absurd heq hp⟩
      | apply pos f a => exact Eval.matches_apply hnear hbody hN
      | binary pos o l r => exact Eval.matches_binary hfar hN
      | unary pos o e => exact Eval.matches_unary hfar hN
      | intLit pos n => exact matches_pure (.int n)
      | floatLit pos x => exact matches_pure (.float x)
      | stringLit pos s => exact matches_pure (.string s)
      | charLit pos s => exact matches_pure (.char s)
      | ident pos x => exact Eval.matches_ident (hN x (List.mem_singleton.mpr rfl))

end Camlet
