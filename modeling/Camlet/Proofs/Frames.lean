import Mathlib.Order.Nat
import Camlet.Proofs.Failures
import Camlet.Proofs.Limits
import Camlet.Proofs.Printing

/-
  Frames. Evaluation always comes to an end by the limit of nested applications, however a program recurses:
  a number of frames that is computed from the limit and from the height of the highest syntax tree is never
  used up, and more frames than that change nothing.

  The evaluation of a body nests as deep as its tree is high, and no deeper than that until another function
  is applied; at most as many applications are open at once as the limit allows. So the frames that are left
  are enough, at each point, for the rest of the tree that is evaluated there and for one tree of the largest
  height for each application that may still be opened. This rests on every closure that is met having its
  body from a tree of the program, or from a closure of the environment at the start.
-/

namespace Camlet

open Eval Stateful

/-! ## Heights -/

/-- The height of an expression, or, of nested functions, that of the body: a function is a value at once,
however many parameters it has. -/
def Node.reach (e : Node) : Nat := e.uncurry.2.height

@[simp] theorem Node.reach_lambda (pos : Pos) (p : String) (b : Node) : (lambda pos p b).reach = b.reach := rfl

@[simp] theorem Node.reach_curry (pos : Pos) (ps : List String) (b : Node) :
    (curry pos ps b).reach = b.reach := by
  induction ps with
  | nil => rfl
  | cons p ps ih => exact ih

theorem IsExpression.reach_pos {e : Node} (h : IsExpression e) : 0 < e.reach :=
  ((Phrase.uncurried_uncurry e).isExpression h).height_pos

theorem IsExpression.reach_le_height {e : Node} (h : IsExpression e) : e.reach ≤ e.height := by
  induction h with
  | lambda pos p _ ih => exact Nat.le_succ_of_le ih
  | _ => exact Nat.le_refl _

/-! ## Bodies of closures -/

/-- A value of which every closure, those that it holds included, has a body that satisfies `P`. -/
inductive Value.Bodies (P : Node → Prop) : Value → Prop
  | int (n : Int) : Bodies P (.int n)
  | float (x : Float) : Bodies P (.float x)
  | string (s : String) : Bodies P (.string s)
  | char (s : String) : Bodies P (.char s)
  | closure {self : Option String} {p : String} {b : Node} {captured : Env} :
    P b → (∀ x v, captured.get? x = some v → Bodies P v) → Bodies P (.closure self p b captured)

/-- An environment of such values. -/
def EnvBodies (P : Node → Prop) (env : Env) : Prop := ∀ x v, env.get? x = some v → v.Bodies P

section

variable {P Q : Node → Prop} {env : Env} {v : Value}

theorem EnvBodies.set (h : EnvBodies P env) {x : String} (hv : v.Bodies P) : EnvBodies P (env.set x v) := by
  intro y w hy
  rw [Bindings.get?_set] at hy
  split at hy
  · cases hy
    exact hv
  · exact h y w hy

theorem Value.bodies_ofNum (a : Num) : (ofNum a).Bodies P := by
  cases a with
  | int n => exact .int n
  | float x => exact .float x

/-- What holds of the bodies holds of those in the environment in which one of them is evaluated. -/
theorem Value.Bodies.callEnv {self : Option String} {p : String} {b : Node} {captured : Env} {w : Value}
    (hv : Bodies P (.closure self p b captured)) (hw : w.Bodies P) :
    EnvBodies P (callEnv (.closure self p b captured) self p captured w) := by
  have hcaptured : EnvBodies P captured := by
    cases hv with
    | closure _ hcaptured => exact hcaptured
  cases self with
  | none => exact hcaptured.set hw
  | some f => exact (hcaptured.set hv).set hw

theorem Value.Bodies.mono (h : v.Bodies P) (hPQ : ∀ b, P b → Q b) : v.Bodies Q := by
  induction h with
  | int n => exact .int n
  | float x => exact .float x
  | string s => exact .string s
  | char s => exact .char s
  | closure hb _ ih => exact .closure (hPQ _ hb) ih

/-- The bodies of a value that trees come to which were read are expressions. -/
theorem Respects.bodies (h : Made v) (hv : v.Bodies P) : v.Bodies fun b => IsExpression b ∧ P b := by
  induction h with
  | int n => exact .int n
  | float x => exact .float x
  | string s => exact .string s
  | char s => exact .char s
  | closure hb _ _ ih =>
    cases hv with
    | closure hP hcaptured => exact .closure ⟨hb, hP⟩ fun x v hx => ih x v hx (hcaptured x v hx)

end

/-! ## Enough frames -/

/-- The frames that are enough for every evaluation under a limit of nested applications, if no syntax tree is
higher than `height`: three for each level of as many trees as the limit allows to be open, and of one more, and
three for the declaration. -/
def framesNeeded (limit : Int) (height : Nat) : Nat := 3 * (height * (limit.toNat + 1) + 1)

/-- The body of a closure that was read, and that nests no deeper than `height` when it is evaluated. -/
abbrev BodyWithin (height : Nat) (b : Node) : Prop := IsExpression b ∧ b.reach ≤ height

section

variable {height : Nat} {limit : Int} {env : Env}

theorem tolerant_exhausted : Tolerant fun f => f.exhausted = false := fun _ _ h => h

/-- With frames for the rest of the tree, and for one tree of the largest height for each application that may
still be opened, an expression never runs out of them; its value is made of the bodies there are. -/
theorem eval_frames {frames depth : Nat} {e : Node} (he : IsExpression e) (hreach : e.reach ≤ height)
    (henv : EnvBodies (BodyWithin height) env)
    (hframes : 3 * (e.reach + height * (limit.toNat - depth)) ≤ frames) :
    Keeps env (eval limit frames depth e) (Value.Bodies (BodyWithin height)) (·.exhausted = false) := by
  induction frames using Nat.strongRecOn generalizing depth e env with
  | ind frames ih =>
    have hQ := tolerant_exhausted
    have hpos := he.reach_pos
    match frames with
    | 0 | 1 | 2 => omega
    | n + 3 =>
      -- The trees below are lower, which pays for the rule; a function that is applied pays with its depth.
      have near : ∀ {m env}, IsExpression m → m.height < e.reach → EnvBodies (BodyWithin height) env →
          Keeps env (eval limit (n + 1) depth m) (Value.Bodies (BodyWithin height)) (·.exhausted = false) := by
        intro m env hm hlt henv
        have hle := hm.reach_le_height
        exact ih (n + 1) (by omega) hm (by omega) henv (by omega)
      have far : ∀ {m env}, IsExpression m → m.height < e.reach → EnvBodies (BodyWithin height) env →
          Keeps env (eval limit n depth m) (Value.Bodies (BodyWithin height)) (·.exhausted = false) := by
        intro m env hm hlt henv
        have hle := hm.reach_le_height
        exact ih n (by omega) hm (by omega) henv (by omega)
      cases he with
      | @letIn pos x v b r hv hr hb =>
        have hlt : max v.height b.height < (Node.letIn pos x v b r).reach := Nat.lt_succ_self _
        cases r with
        | false =>
          exact keeps_letIn (near hv (by omega) henv) fun w hw => near hb (by omega) (henv.set hw)
        | true =>
          cases hv with
          | @lambda q p code hcode =>
            have hle := hcode.reach_le_height
            rw [Node.height] at hlt
            have hw : Value.Bodies (BodyWithin height) (.closure (some x) p code env) :=
              .closure ⟨hcode, by omega⟩ henv
            exact keeps_letRec (near hb (by omega) (henv.set hw))
          | _ => cases hr rfl
      | @cond pos c t e hc ht he =>
        have hlt : max c.height (max t.height e.height) < (Node.cond pos c t e).reach := Nat.lt_succ_self _
        exact keeps_cond hQ (near hc (by omega) henv) (near ht (by omega) henv) (near he (by omega) henv)
      | @matching pos s cs hs hne hp he =>
        obtain ⟨⟨p, e⟩, cs, rfl⟩ := List.exists_cons_of_ne_nil hne
        have hlt : max s.height (max e.height (Node.casesHeight cs)) <
            (Node.matching pos s ((p, e) :: cs)).reach := Nat.lt_succ_self _
        have hexp := he _ (List.mem_cons_self ..)
        have hpat := hp _ (List.mem_cons_self ..)
        refine keeps_matching (near hs (by omega) henv) hpat fun v hv => ?_
        cases hpat with
        | wildcard => exact near hexp (by omega) henv
        | bind => exact near hexp (by omega) (henv.set hv)
      | lambda pos p hb => exact keeps_get (keeps_pure (.closure ⟨hb, hreach⟩ henv))
      | @apply pos f a hf ha =>
        have hlt : max f.height a.height < (Node.apply pos f a).reach := Nat.lt_succ_self _
        refine keeps_apply hQ (near hf (by omega) henv) (near ha (by omega) henv)
          fun hdepth self p code captured w hv hw => ?_
        have hcall := hv.callEnv hw
        cases hv with
        | closure hcode =>
          have hopen : limit.toNat - depth = limit.toNat - (depth + 1) + 1 := by omega
          rw [hopen, Nat.mul_succ] at hframes
          exact (ih n (by omega) hcode.1 hcode.2 hcall (by have := hcode.2; omega)).gives
      | @binary pos o l r hl hr =>
        have hlt : max l.height r.height < (Node.binary pos o l r).reach := Nat.lt_succ_self _
        exact keeps_binary hQ (far hl (by omega) henv) (far hr (by omega) henv)
          (fun _ _ => Value.bodies_ofNum _) fun _ _ _ _ _ _ => Value.bodies_ofNum _
      | @unary pos o e he =>
        have hlt : e.height < (Node.unary pos o e).reach := Nat.lt_succ_self _
        exact keeps_unary hQ (far he hlt henv) fun _ _ _ _ => Value.bodies_ofNum _
      | intLit pos n => exact keeps_pure (.int n)
      | floatLit pos x => exact keeps_pure (.float x)
      | stringLit pos s => exact keeps_pure (.string s)
      | charLit pos s => exact keeps_pure (.char s)
      | ident pos x => exact keeps_ident (henv x) fun _ => rfl

/-! ## Declarations, one after the other -/

theorem EnvBodies.bound {P : Node → Prop} {d : Node} {v : Value} (henv : EnvBodies P env) (hv : v.Bodies P) :
    EnvBodies P (d.bound v env) := by
  cases d with
  | letDecl | funDecl => exact henv.set hv
  | _ => exact henv

/-- Only where the frames were used up a declaration is reported to have run out of them. -/
theorem ofRun_not_exhausted {d : Node} {res : Except Failure Value} {g : Located RuntimeFault}
    (hres : ∀ f, res = .error f → f.exhausted = false) (h : Outcome.ofRun d res = .ok (.error g)) (x : String) :
    g.val ≠ .stackOverflow x := by
  unfold Outcome.ofRun Outcome.ofRun.named at h
  split at h
  next f =>
    cases h
    obtain ⟨pos, val⟩ := g
    rintro (rfl : val = .stackOverflow x)
    cases hres _ rfl
  next => cases h
  next => cases hres _ rfl
  next =>
    split at h <;> cases h
    exact nofun
  next => split at h <;> cases h

section

variable {frames : Nat} {d : Node} {ds : List Node}

/-- With enough frames a declaration does not run out of them, and makes closures of the bodies there are. -/
theorem declaration_frames (hd : IsDeclaration d) (hheight : d.height ≤ height)
    (henv : EnvBodies (BodyWithin height) env) (hframes : framesNeeded limit height ≤ frames) :
    EnvBodies (BodyWithin height) (evaluated limit frames d env).2 ∧
      ∀ f, (evaluated limit frames d env).1 = .error f → f.exhausted = false := by
  rw [framesNeeded, Nat.mul_add_one height] at hframes
  obtain ⟨n, rfl⟩ : ∃ n, frames = n + 3 := ⟨frames - 3, by omega⟩
  have hbelow : ∀ {e}, IsExpression e → e.height ≤ height →
      Keeps env (eval limit (n + 1) 0 e) (Value.Bodies (BodyWithin height)) (·.exhausted = false) := by
    intro e he hle
    have hreach := Nat.le_trans he.reach_le_height hle
    refine eval_frames he hreach henv ?_
    rw [Nat.sub_zero]
    omega
  cases hrun : evaluated limit (n + 3) d env with
  | mk res env' =>
    have hends : (∃ v, res = .ok v ∧ env' = d.bound v env ∧ v.Bodies (BodyWithin height)) ∨
        ∃ f, res = .error f ∧ env' = env ∧ f.exhausted = false := by
      cases hd with
      | letDecl pos x hv => exact evaluated_letDecl (hbelow hv hheight) hrun
      | exprStmt pos he => exact evaluated_exprStmt (hbelow he hheight) hrun
      | funDecl pos f p ps r hb =>
        have hcurry := Nat.le_trans hb.reach_le_height hheight
        rw [← Node.reach_curry pos ps] at hcurry
        cases hrun
        exact .inl ⟨_, rfl, rfl, .closure ⟨hb.curry pos ps, hcurry⟩ henv⟩
    obtain ⟨v, rfl, rfl, hv⟩ | ⟨f, rfl, rfl, hf⟩ := hends
    · exact ⟨henv.bound hv, nofun⟩
    · exact ⟨henv, fun g hg => by cases hg; exact hf⟩

/-- More frames than are enough change nothing. -/
theorem evaluated_frames (hd : IsDeclaration d) (hheight : d.height ≤ height)
    (henv : EnvBodies (BodyWithin height) env) (hframes : framesNeeded limit height ≤ frames) :
    evaluated limit frames d env = evaluated limit (framesNeeded limit height) d env := by
  have hfails := (declaration_frames hd hheight henv (Nat.le_refl (framesNeeded limit height))).2
  unfold evaluated at hfails ⊢
  rcases eval_outlasts limit hframes 0 d env with heq | ⟨f, env', rfl, heq⟩
  · rw [heq]
  · rw [heq] at hfails
    cases hfails _ rfl

/-- Declarations come to the same with any number of frames that is enough, and none of them runs out. -/
theorem evaluateWithin_frames (hds : ∀ d ∈ ds, IsDeclaration d ∧ d.height ≤ height)
    (henv : EnvBodies (BodyWithin height) env) (hframes : framesNeeded limit height ≤ frames) :
    evaluateWithin frames limit ds env = evaluateWithin (framesNeeded limit height) limit ds env ∧
      ∀ os env', evaluateWithin frames limit ds env = .ok (os, env') →
        ∀ f, .error f ∈ os → ∀ x, f.val ≠ .stackOverflow x := by
  induction ds generalizing env with
  | nil =>
    refine ⟨rfl, fun os env' h f hf => ?_⟩
    cases h
    cases hf
  | cons d ds ih =>
    obtain ⟨⟨hd, hheight⟩, hds⟩ := List.forall_mem_cons.mp hds
    obtain ⟨henv', hfails⟩ := declaration_frames hd hheight henv hframes
    obtain ⟨hsame, hclean⟩ := ih hds henv'
    refine ⟨?_, fun os env' h f hf x => ?_⟩
    · rw [evaluateWithin_eq, evaluateWithin_eq, ← evaluated_frames hd hheight henv hframes, hsame]
    · obtain ⟨res, env₁, o, os', hrun, ho, rfl, hrest⟩ := evaluateWithin_cons h
      rw [hrun] at hfails hclean
      rcases List.mem_cons.mp hf with rfl | hf
      · exact ofRun_not_exhausted hfails ho x
      · exact hclean os' env' hrest f hf x

end

end

/-! ## The largest height -/

theorem Bindings.mem_of_get? {α : Type} {m : Bindings α} {x : String} {a : α} (h : m.get? x = some a) :
    (x, a) ∈ m := by
  induction m with
  | nil => cases h
  | cons e m ih =>
    rw [get?] at h
    split at h
    next hx =>
      cases h
      exact hx ▸ List.mem_cons_self ..
    next => exact List.mem_cons_of_mem _ (ih h)

/-- An environment of values of bounded height is of bounded height. -/
theorem exists_envHeight (env : Env) (h : ∀ e ∈ env, ∃ n, e.2.Bodies (·.height ≤ n)) :
    ∃ n, EnvBodies (·.height ≤ n) env := by
  have hentries : ∃ n, ∀ e ∈ env, e.2.Bodies (·.height ≤ n) := by
    induction env with
    | nil => exact ⟨0, List.forall_mem_nil _⟩
    | cons e env ih =>
      obtain ⟨he, henv⟩ := List.forall_mem_cons.mp h
      obtain ⟨n, hn⟩ := he
      obtain ⟨m, hm⟩ := ih henv
      refine ⟨max n m, List.forall_mem_cons.mpr ⟨?_, fun e' he' => ?_⟩⟩
      · exact hn.mono fun b hb => Nat.le_trans hb (Nat.le_max_left n m)
      · exact (hm e' he').mono fun b hb => Nat.le_trans hb (Nat.le_max_right n m)
  obtain ⟨n, hn⟩ := hentries
  exact ⟨n, fun x v hx => hn _ (Bindings.mem_of_get? hx)⟩

theorem Value.exists_height : (v : Value) → ∃ n, v.Bodies (·.height ≤ n)
  | .int n => ⟨0, .int n⟩
  | .float x => ⟨0, .float x⟩
  | .string s => ⟨0, .string s⟩
  | .char s => ⟨0, .char s⟩
  | .closure self p b captured => by
    obtain ⟨n, hn⟩ := exists_envHeight captured fun e he => by
      have hsize := List.sizeOf_lt_of_mem he
      exact Value.exists_height e.2
    refine ⟨max b.height n, .closure (Nat.le_max_left ..) fun x v hx => (hn x v hx).mono fun c hc => ?_⟩
    exact Nat.le_trans hc (Nat.le_max_right ..)
termination_by v => sizeOf v
decreasing_by
  obtain ⟨x, w⟩ := e
  simp only [Value.closure.sizeOf_spec, Prod.mk.sizeOf_spec] at hsize ⊢
  omega

/-- A height that no declaration exceeds, and no body of a closure in the environment or inside such a
closure. -/
def HeightBound (ds : List Node) (env : Env) (height : Nat) : Prop :=
  (∀ d ∈ ds, d.height ≤ height) ∧ EnvBodies (·.height ≤ height) env

theorem exists_bounds (ds : List Node) (env : Env) : ∃ height, HeightBound ds env height := by
  obtain ⟨m, hm⟩ := exists_envHeight env fun e _ => e.2.exists_height
  obtain ⟨n, hn⟩ : ∃ n, ∀ d ∈ ds, d.height ≤ n :=
    ⟨(ds.map Node.height).sum, fun d hd => List.le_sum_of_mem (List.mem_map_of_mem hd)⟩
  refine ⟨max n m, fun d hd => Nat.le_trans (hn d hd) (Nat.le_max_left ..), fun x v hx => ?_⟩
  exact (hm x v hx).mono fun b hb => Nat.le_trans hb (Nat.le_max_right ..)

/-- Evaluation comes to an end by the limit of nested applications alone. With the frames that are computed from
the limit and from the largest height of the program's declarations and of the bodies in the environment, and
with any larger number, a program that was read comes to the same: no declaration of it is reported to be
nested too deeply for the frames, and only a remainder without a value, where one is reached, makes it crash. -/
theorem evaluateWithin_ends (source : String) (p : Program) (limit : Int) (env : Env)
    (hp : (parse source).program = some p) (henv : EnvMade env) :
    ∃ height, IsLeast {n | HeightBound p.body env n} height ∧ ∀ frames, framesNeeded limit height ≤ frames →
      evaluateWithin frames limit p.body env = evaluateWithin (framesNeeded limit height) limit p.body env ∧
      ((∃ os env', evaluateWithin frames limit p.body env = .ok (os, env') ∧
          ∀ f, .error f ∈ os → ∀ x, f.val ≠ .stackOverflow x) ∨
        evaluateWithin frames limit p.body env = .error .noRemainder ∧
          ReachesRemainder frames limit Num.LackRemainder p.body env) := by
  classical
  have hleast := Nat.isLeast_find (exists_bounds p.body env)
  refine ⟨_, hleast, fun frames hframes => ?_⟩
  obtain ⟨hheights, hbodies⟩ := hleast.1
  have hds := parse_isDeclaration hp
  have hwithin : EnvBodies (BodyWithin (Nat.find (exists_bounds p.body env))) env := fun x v hx => by
    refine ((henv x v hx).bodies (hbodies x v hx)).mono fun b hb => ⟨hb.1, ?_⟩
    exact Nat.le_trans hb.1.reach_le_height hb.2
  obtain ⟨hsame, hclean⟩ := evaluateWithin_frames (fun d hd => ⟨hds d hd, hheights d hd⟩) hwithin hframes
  refine ⟨hsame, ?_⟩
  rcases evaluateWithin_cases hds henv with ⟨os, env', hrun, -, -⟩ | hcrash
  · exact .inl ⟨os, env', hrun, hclean os env' hrun⟩
  · exact .inr ⟨hcrash, (evaluateWithin_crash hds henv).mp hcrash⟩

/-- The function that `let rec g x = g x` binds. -/
def endless : Value :=
  .closure (some "g") "x" (.apply ⟨1, 13⟩ (.ident ⟨1, 13⟩ "g") (.ident ⟨1, 15⟩ "x")) []

/-- A function that is applied to itself, and one of an earlier text that never comes to an end of its own. -/
theorem evaluateWithin_ends_endless :
    EnvMade [("g", endless)] ∧ ∃ p height, (parse "let w f = f f;; w w;; g 1;;").program = some p ∧
      IsLeast {n | HeightBound p.body [("g", endless)] n} height ∧ ∀ frames, framesNeeded 1000 height ≤ frames →
        evaluateWithin frames 1000 p.body [("g", endless)] =
          evaluateWithin (framesNeeded 1000 height) 1000 p.body [("g", endless)] ∧
        ((∃ os env', evaluateWithin frames 1000 p.body [("g", endless)] = .ok (os, env') ∧
            ∀ f, .error f ∈ os → ∀ x, f.val ≠ .stackOverflow x) ∨
          evaluateWithin frames 1000 p.body [("g", endless)] = .error .noRemainder ∧
            ReachesRemainder frames 1000 Num.LackRemainder p.body [("g", endless)]) := by
  have hnothing : EnvMade [] := fun x v hx => by cases hx
  have hmade : EnvMade [("g", endless)] :=
    hnothing.set (.closure (.apply _ (.ident _ _) (.ident _ _)) (fun _ _ => .inr (.inr (.inr trivial))) hnothing)
  have hread : (parse "let w f = f f;; w w;; g 1;;").program.isSome = true := by decide +kernel
  obtain ⟨p, hp⟩ := Option.isSome_iff_exists.mp hread
  obtain ⟨height, hleast, hends⟩ := evaluateWithin_ends _ p 1000 _ hp hmade
  exact ⟨hmade, p, height, hp, hleast, hends⟩

end Camlet
