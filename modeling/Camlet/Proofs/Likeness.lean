import Camlet.Evaluation.Basic
import Camlet.Proofs.Places
import Camlet.Proofs.Stateful

/-
  Values that are alike: equal, but for places in the bodies of closures. Evaluation does not tell them
  apart. Where an expression has a value, the same expression at other places has a value like it, in any
  environment that binds the same names to values like those, however that came to hold them; and so for
  everything that the evaluation of an expression evaluates on the way.
-/

namespace Camlet

open Stateful

/-- Values that are equal but for places in the bodies of closures, of those that they hold included. -/
inductive Value.Alike : Value → Value → Prop
  | int (n : Int) : Alike (.int n) (.int n)
  | float (x : Float) : Alike (.float x) (.float x)
  | string (s : String) : Alike (.string s) (.string s)
  | char (s : String) : Alike (.char s) (.char s)
  | closure (self : Option String) (param : String) (body : Node) (f : Pos → Pos) {held held' : Env} :
    (∀ x, held.has x = held'.has x) →
    (∀ x v w, held.get? x = some v → held'.get? x = some w → Alike v w) →
    Alike (.closure self param body held) (.closure self param (body.moved f) held')

/-- Environments that bind the same names to values that are alike. -/
structure EnvAlike (env env' : Env) : Prop where
  has : ∀ x, env.has x = env'.has x
  get : ∀ x v w, env.get? x = some v → env'.get? x = some w → v.Alike w

theorem Value.Alike.kind {v w : Value} (h : v.Alike w) : v.kind = w.kind := by
  cases h <;> rfl

theorem Value.Alike.render {v w : Value} (h : v.Alike w) : v.render = w.render := by
  cases h <;> rfl

theorem Value.Alike.number? {v w : Value} (h : v.Alike w) : Eval.number? v = Eval.number? w := by
  cases h <;> rfl

theorem alike_ofNum (a : Num) : (Eval.ofNum a).Alike (Eval.ofNum a) := by
  cases a with
  | int n => exact .int n
  | float x => exact .float x

namespace EnvAlike

variable {env env' : Env}

theorem nil : EnvAlike [] [] := ⟨fun _ => rfl, fun _ _ _ h => by cases h⟩

theorem set (h : EnvAlike env env') {v w : Value} (hv : v.Alike w) (x : String) :
    EnvAlike (env.set x v) (env'.set x w) := by
  constructor
  · intro y
    simp only [Bindings.has, Bindings.get?_set]
    split
    · rfl
    · exact h.has y
  · intro y v' w' hv' hw'
    rw [Bindings.get?_set] at hv' hw'
    split at hv'
    next hxy =>
      rw [if_pos hxy] at hw'
      cases hv'
      cases hw'
      exact hv
    next hxy =>
      rw [if_neg hxy] at hw'
      exact h.get y v' w' hv' hw'

/-- What one of them binds the other binds alike. -/
theorem bound (h : EnvAlike env env') {x : String} {v : Value} (hx : env.get? x = some v) :
    ∃ w, env'.get? x = some w ∧ v.Alike w := by
  have hhas := h.has x
  rw [Bindings.has, Bindings.has, hx, Option.isSome_some] at hhas
  obtain ⟨w, hw⟩ := Option.isSome_iff_exists.mp hhas.symm
  exact ⟨w, hw, h.get x v w hx hw⟩

/-- Closures that are made in environments that are alike. -/
theorem closure (h : EnvAlike env env') (self : Option String) (param : String) (body : Node)
    (f : Pos → Pos) : Value.Alike (.closure self param body env) (.closure self param (body.moved f) env') :=
  .closure self param body f h.has h.get

/-- The environments in which the bodies of such closures are evaluated. -/
theorem callEnv {self : Option String} {param : String} (h : EnvAlike env env') {v w a b : Value}
    (hv : Value.Alike v w) (ha : Value.Alike a b) :
    EnvAlike (Eval.callEnv v self param env a) (Eval.callEnv w self param env' b) := by
  cases self with
  | none => exact h.set ha param
  | some name => exact (h.set hv name).set ha param

end EnvAlike

namespace Eval

/-- Where one step has a value, the other has one like it, in environments that are alike. -/
abbrev AgreesWith (x y : Eval Value) : Prop := Mirrors EnvAlike x y Value.Alike EnvAlike

/-- Nodes evaluate as they do at other places. -/
def PlaceFree (eval : Node → Eval Value) : Prop := ∀ e f, AgreesWith (eval e) (eval (e.moved f))

theorem mirrors_within {env env' : Env} (henv : EnvAlike env env') {x y : Eval Value}
    (h : AgreesWith x y) : AgreesWith (within env x) (within env' y) := by
  intro s t hst v s' hx
  unfold within at hx ⊢
  cases hrun : x env with
  | ok a e =>
    rw [hrun] at hx
    cases hx
    obtain ⟨w, e', hy, hvw, -⟩ := h env env' henv v e hrun
    rw [hy]
    exact ⟨w, t, rfl, hvw, hst⟩
  | error e e' =>
    rw [hrun] at hx
    cases hx

theorem mirrors_bind {v w : Value} (h : v.Alike w) (x : String) :
    Mirrors EnvAlike (Eval.bind x v) (Eval.bind x w) (fun _ _ => True) EnvAlike := by
  intro s t hst a s' hx
  cases hx
  exact ⟨(), _, rfl, trivial, hst.set h x⟩

/-! ## One lemma for each rule -/

section

variable {near far body : Node → Eval Value} (f : Pos → Pos) (pos pos' : Pos)

theorem mirrors_operand (hfar : PlaceFree far) (o : String) (n : Node) :
    Mirrors EnvAlike (operand far o n) (operand far o (n.moved f)) Eq EnvAlike := by
  refine (hfar n f).bind fun v w hvw => ?_
  rw [hvw.number?]
  cases number? w with
  | some a => exact mirrors_pure rfl
  | none => exact mirrors_throw

theorem mirrors_computed (o : String) (r : Except NumFault Num) :
    AgreesWith (computed pos o r) (computed pos' o r) := by
  cases r with
  | ok a => exact mirrors_pure (alike_ofNum a)
  | error e => cases e <;> exact mirrors_throw

theorem mirrors_letDecl (hnear : PlaceFree near) (x : String) (v : Node) :
    AgreesWith (letDecl near x v) (letDecl near x (v.moved f)) :=
  (hnear v f).bind fun _ _ hvw => (mirrors_bind hvw x).bind fun _ _ _ => mirrors_pure hvw

theorem mirrors_funDecl (x : String) (ps : List String) (b : Node) (r : Bool) :
    AgreesWith (funDecl pos x ps b r) (funDecl (f pos) x ps (b.moved f) r) := by
  cases ps with
  | nil => exact mirrors_throw
  | cons p ps =>
    refine mirrors_get fun env env' henv => ?_
    have hclosure := henv.closure (if r then some x else none) p (.curry pos ps b) f
    rw [Node.curry_moved] at hclosure
    exact (mirrors_bind hclosure x).bind fun _ _ _ => mirrors_pure hclosure

theorem mirrors_recursiveValue (x : String) (v : Node) :
    AgreesWith (recursiveValue x v) (recursiveValue x (v.moved f)) := by
  cases v with
  | lambda q p b => exact mirrors_get fun env env' henv => mirrors_pure (henv.closure (some x) p b f)
  | _ => exact mirrors_throw

theorem mirrors_letIn (hnear : PlaceFree near) (x : String) (v b : Node) (r : Bool) :
    AgreesWith (letIn near x v b r) (letIn near x (v.moved f) (b.moved f) r) := by
  have hbody : ∀ w w', w.Alike w' →
      AgreesWith (get >>= fun env => within (env.set x w) (near b))
        (get >>= fun env => within (env.set x w') (near (b.moved f))) := fun w w' hw =>
    mirrors_get fun env env' henv => mirrors_within (henv.set hw x) (hnear b f)
  cases r with
  | false => exact Mirrors.bind (hnear v f) hbody
  | true => exact (mirrors_recursiveValue f x v).bind hbody

theorem mirrors_cond (hnear : PlaceFree near) (c t e : Node) :
    AgreesWith (Eval.cond near c t e) (Eval.cond near (c.moved f) (t.moved f) (e.moved f)) := by
  refine (hnear c f).bind fun v w hvw => ?_
  rw [hvw.number?]
  cases number? w with
  | none => exact mirrors_throw
  | some a =>
    dsimp only
    split
    · exact hnear e f
    · exact hnear t f

theorem mirrors_cases (hnear : PlaceFree near) {v w : Value} (hvw : v.Alike w) (cs : List (Node × Node)) :
    AgreesWith (cases near pos v cs) (cases near pos' w (Node.movedCases f cs)) := by
  induction cs with
  | nil =>
    unfold Eval.cases
    cases v.render <;> exact mirrors_throw
  | cons c cs ih =>
    obtain ⟨p, e⟩ := c
    cases p with
    | wildcard => exact hnear e f
    | bind _ x => exact mirrors_get fun env env' henv => mirrors_within (henv.set hvw x) (hnear e f)
    | _ => exact ih

theorem mirrors_matching (hnear : PlaceFree near) (s : Node) (cs : List (Node × Node)) :
    AgreesWith (matching near pos s cs) (matching near pos' (s.moved f) (Node.movedCases f cs)) :=
  (hnear s f).bind fun _ _ hvw => mirrors_cases f pos pos' hnear hvw cs

theorem mirrors_apply (hnear : PlaceFree near) (hbody : PlaceFree body) (limit : Int) (depth : Nat)
    (g a : Node) :
    AgreesWith (apply near body limit depth pos g a)
      (apply near body limit depth pos' (g.moved f) (a.moved f)) := by
  refine (hnear g f).bind fun v w hvw => ?_
  cases hvw with
  | closure self p code f' hhas hget =>
    refine (hnear a f).bind fun u u' hu => ?_
    split
    · exact mirrors_throw
    · exact mirrors_within (EnvAlike.callEnv ⟨hhas, hget⟩ (.closure self p code f' hhas hget) hu)
        (hbody code f')
  | int | float | string | char => exact mirrors_throw

theorem mirrors_binary (hfar : PlaceFree far) (o : String) (l r : Node) :
    AgreesWith (binary far pos o l r) (binary far pos' o (l.moved f) (r.moved f)) := by
  have hright := mirrors_operand f hfar o r
  refine (mirrors_operand f hfar o l).bind fun a b hab => ?_
  subst hab
  have hlogical : AgreesWith (operand far o r >>= fun b => pure (ofNum (.ofBool !b.isZero)))
      (operand far o (r.moved f) >>= fun b => pure (ofNum (.ofBool !b.isZero))) :=
    hright.bind fun b b' hb => hb ▸ mirrors_pure (alike_ofNum _)
  split
  · split
    · exact mirrors_pure (alike_ofNum _)
    · exact hlogical
  · split
    · split
      · exact hlogical
      · exact mirrors_pure (alike_ofNum _)
    · exact hright.bind fun b b' hb => hb ▸ mirrors_computed pos pos' o _

theorem mirrors_unary (hfar : PlaceFree far) (o : String) (n : Node) :
    AgreesWith (unary far pos o n) (unary far pos' o (n.moved f)) :=
  (mirrors_operand f hfar o n).bind fun _ _ ha => ha ▸ mirrors_computed pos pos' o _

theorem mirrors_ident (x : String) : AgreesWith (ident pos x) (ident pos' x) := by
  refine mirrors_get fun env env' henv => ?_
  cases hx : env.get? x with
  | none => exact mirrors_throw
  | some v =>
    obtain ⟨w, hw, hvw⟩ := henv.bound hx
    rw [hw]
    exact mirrors_pure hvw

end

end Eval

/-- Where a node has a value, it has a value like that at other places and in environments that are
alike. -/
theorem eval_alike (limit : Int) (frames depth : Nat) : Eval.PlaceFree (eval limit frames depth) := by
  -- On the frames that are left: every node that a rule evaluates has fewer, also the body of a closure,
  -- which is no part of the node.
  induction frames using Nat.strongRecOn generalizing depth with
  | ind frames ih =>
    intro e f
    match frames with
    | 0 | 1 | 2 => exact mirrors_throw
    | n + 3 =>
      have hnear : Eval.PlaceFree (eval limit (n + 1) depth) := ih (n + 1) (by omega) depth
      have hfar : Eval.PlaceFree (eval limit n depth) := ih n (by omega) depth
      have hbody : Eval.PlaceFree (eval limit n (depth + 1)) := ih n (by omega) (depth + 1)
      cases e with
      | wildcard | bind | program => exact mirrors_throw
      | letDecl pos x v => exact Eval.mirrors_letDecl f hnear x v
      | funDecl pos x ps b r => exact Eval.mirrors_funDecl f pos x ps b r
      | exprStmt pos e => exact hnear e f
      | letIn pos x v b r => exact Eval.mirrors_letIn f hnear x v b r
      | cond pos c t e => exact Eval.mirrors_cond f hnear c t e
      | matching pos s cs => exact Eval.mirrors_matching f pos (f pos) hnear s cs
      | lambda pos p b =>
        exact mirrors_get fun env env' henv => mirrors_pure (henv.closure none p b f)
      | apply pos g a => exact Eval.mirrors_apply f pos (f pos) hnear hbody limit depth g a
      | binary pos o l r => exact Eval.mirrors_binary f pos (f pos) hfar o l r
      | unary pos o n => exact Eval.mirrors_unary f pos (f pos) hfar o n
      | intLit pos n => exact mirrors_pure (.int n)
      | floatLit pos x => exact mirrors_pure (.float x)
      | stringLit pos s => exact mirrors_pure (.string s)
      | charLit pos s => exact mirrors_pure (.char s)
      | ident pos x => exact Eval.mirrors_ident pos (f pos) x

end Camlet
