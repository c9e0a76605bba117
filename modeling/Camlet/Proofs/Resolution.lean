import Camlet.Proofs.Environments
import Camlet.Proofs.Names
import Camlet.Proofs.Runs

/-
  Names at run time. Whenever a name turns out not to be bound, it was declared at the top of a text whose
  declaration of it failed: the occurrence stands free in a later declaration of the same text, wherever
  and whenever that is evaluated. No name that is bound inside an expression is ever missed.

  The occurrences that may be missed are collected in a predicate. A value respects it if every free
  occurrence in the body of a closure is bound by the closure or may be missed, and so for all values
  that the closure holds.
-/

namespace Camlet

/-- Occurrences of names that may turn out not to be bound. -/
abbrev Excuse := Located String → Prop

/-- A value in which nothing is missed but what is excused. -/
inductive Respects (E : Excuse) : Value → Prop
  | int (n : Int) : Respects E (.int n)
  | float (x : Float) : Respects E (.float x)
  | string (s : String) : Respects E (.string s)
  | char (s : String) : Respects E (.char s)
  | closure {self : Option String} {p : String} {b : Node} {captured : Env} :
    IsExpression b →
    (∀ o ∈ b.free, o.val = p ∨ self = some o.val ∨ captured.has o.val = true ∨ E o) →
    (∀ x v, captured.get? x = some v → Respects E v) → Respects E (.closure self p b captured)

/-- An environment of such values. -/
def EnvRespects (E : Excuse) (env : Env) : Prop := ∀ x v, env.get? x = some v → Respects E v

/-- An environment that binds the given occurrences, but for excused ones. -/
def Covers (E : Excuse) (env : Env) (os : List (Located String)) : Prop :=
  ∀ o ∈ os, env.has o.val = true ∨ E o

/-- A failure other than by a name that is missed without an excuse. -/
def Excused (E : Excuse) (f : Failure) : Prop := ∀ pos x, f = .fault ⟨pos, .undefined x⟩ → E ⟨pos, x⟩

theorem lenient_excused (E : Excuse) : Eval.Lenient (Excused E) :=
  fun _ hf pos x h => absurd h (hf pos x)

section

variable {E : Excuse} {env : Env}

theorem EnvRespects.set (h : EnvRespects E env) {x : String} {v : Value} (hv : Respects E v) :
    EnvRespects E (env.set x v) := by
  intro y w hy
  rw [Bindings.get?_set] at hy
  split at hy
  · cases hy
    exact hv
  · exact h y w hy

theorem has_set {x y : String} {v : Value} :
    Bindings.has (env.set x v) y = true ↔ x = y ∨ env.has y = true := by
  rw [Bindings.has, Bindings.get?_set]
  split
  next h => simp [h]
  next h => simp [h, Bindings.has]

theorem Covers.set {os : List (Located String)} {x : String} {v : Value}
    (h : Covers E env (unbound x os)) : Covers E (env.set x v) os := by
  intro o ho
  rw [has_set]
  by_cases hx : o.val = x
  · exact .inl (.inl hx.symm)
  · exact (h o (mem_unbound.mpr ⟨ho, hx⟩)).imp_left .inr

theorem Covers.append {os os' : List (Located String)} :
    Covers E env (os ++ os') ↔ Covers E env os ∧ Covers E env os' := by
  simp [Covers, or_imp, forall_and]

/-- A closure is applied in an environment of respectful values that covers its body. -/
theorem callEnv_respects {self : Option String} {p : String} {b : Node} {captured : Env} {w : Value}
    (hv : Respects E (.closure self p b captured)) (hw : Respects E w) :
    EnvRespects E (Eval.callEnv (.closure self p b captured) self p captured w) ∧
      Covers E (Eval.callEnv (.closure self p b captured) self p captured w) b.free := by
  have hv' := hv
  cases hv with
  | closure hb hfree hcap =>
    constructor
    · cases self with
      | none => exact EnvRespects.set hcap hw
      | some f => exact EnvRespects.set (EnvRespects.set hcap hv') hw
    · intro o ho
      rcases hfree o ho with h | h | h | h
      · exact .inl (has_set.mpr (.inl h.symm))
      · subst h
        exact .inl (has_set.mpr (.inr (has_set.mpr (.inl rfl))))
      · left
        refine has_set.mpr (.inr ?_)
        cases self with
        | none => exact h
        | some f => exact has_set.mpr (.inr h)
      · exact .inr h

end

/-! ## Expressions -/

theorem respects_ofNum {E : Excuse} (a : Num) : Respects E (Eval.ofNum a) := by
  cases a with
  | int n => exact .int n
  | float x => exact .float x

/-- The closure of a function respects what its environment does. -/
theorem respects_closure {E : Excuse} {env : Env} {self : Option String} {p : String} {b : Node}
    (henv : EnvRespects E env) (hb : IsExpression b)
    (hcov : ∀ o ∈ unbound p b.free, self = some o.val ∨ env.has o.val = true ∨ E o) :
    Respects E (.closure self p b env) := by
  refine .closure hb (fun o ho => ?_) henv
  by_cases hp : o.val = p
  · exact .inl hp
  · exact .inr (hcov o (mem_unbound.mpr ⟨ho, hp⟩))

/-- In an environment that covers an expression, nothing is missed but what is excused. -/
theorem eval_respects {E : Excuse} (limit : Int) (frames depth : Nat) {e : Node} {env : Env}
    (he : IsExpression e) (henv : EnvRespects E env) (hcov : Covers E env e.free) :
    Eval.Keeps env (eval limit frames depth e) (Respects E) (Excused E) := by
  induction frames using Nat.strongRecOn generalizing depth e env with
  | ind frames ih =>
    have hQ := (lenient_excused E).tolerant
    match frames with
    | 0 | 1 | 2 => exact Eval.keeps_throw (lenient_excused E _ nofun)
    | n + 3 =>
      have near : ∀ {e env}, IsExpression e → EnvRespects E env → Covers E env e.free →
          Eval.Keeps env (eval limit (n + 1) depth e) (Respects E) (Excused E) := ih (n + 1) (by omega) depth
      have far : ∀ {e env}, IsExpression e → EnvRespects E env → Covers E env e.free →
          Eval.Keeps env (eval limit n depth e) (Respects E) (Excused E) := ih n (by omega) depth
      cases he with
      | @letIn pos x v b r hv hr hb =>
        obtain ⟨hcv, hcb⟩ := Covers.append.mp hcov
        cases r with
        | false =>
          exact Eval.keeps_letIn (near hv henv hcv) fun w hw => near hb (henv.set hw) hcb.set
        | true =>
          cases hv with
          | @lambda q p code hcode =>
            have hw : Respects E (.closure (some x) p code env) := by
              refine respects_closure henv hcode fun o ho => ?_
              by_cases hx : o.val = x
              · exact .inl (congrArg some hx.symm)
              · exact .inr (hcv o (mem_unbound.mpr ⟨ho, hx⟩))
            exact Eval.keeps_letRec (near hb (henv.set hw) hcb.set)
          | _ => cases hr rfl
      | cond pos hc ht he =>
        obtain ⟨hcov, hce⟩ := Covers.append.mp hcov
        obtain ⟨hcc, hct⟩ := Covers.append.mp hcov
        exact Eval.keeps_cond hQ (near hc henv hcc) (near ht henv hct) (near he henv hce)
      | @matching pos s cs hs hne hp he =>
        obtain ⟨hcs, hcc⟩ := Covers.append.mp hcov
        obtain ⟨⟨p, e⟩, cs, rfl⟩ := List.exists_cons_of_ne_nil hne
        have hpat := hp _ (List.mem_cons_self ..)
        have hexp := he _ (List.mem_cons_self ..)
        have hce : Covers E env (p.unboundCase e.free) :=
          fun o ho => hcc o (Node.mem_casesFree.mpr ⟨_, List.mem_cons_self .., ho⟩)
        refine Eval.keeps_matching (near hs henv hcs) hpat fun v hv => ?_
        cases hpat with
        | wildcard => exact near hexp henv hce
        | bind => exact near hexp (henv.set hv) hce.set
      | lambda pos p hb =>
        exact Eval.keeps_get (Eval.keeps_pure (respects_closure henv hb fun o ho => .inr (hcov o ho)))
      | apply pos hf ha =>
        obtain ⟨hcf, hca⟩ := Covers.append.mp hcov
        refine Eval.keeps_apply hQ (near hf henv hcf) (near ha henv hca) fun _ self p code captured w hv hw => ?_
        obtain ⟨henv', hcov'⟩ := callEnv_respects hv hw
        cases hv with
        | closure hcode => exact (ih n (by omega) (depth + 1) hcode henv' hcov').gives
      | binary pos o hl hr =>
        obtain ⟨hcl, hcr⟩ := Covers.append.mp hcov
        exact Eval.keeps_binary hQ (far hl henv hcl) (far hr henv hcr) (fun _ _ => respects_ofNum _)
          fun _ _ _ _ _ _ => respects_ofNum _
      | unary pos o he => exact Eval.keeps_unary hQ (far he henv hcov) fun _ _ _ _ => respects_ofNum _
      | intLit pos n => exact Eval.keeps_pure (.int n)
      | floatLit pos x => exact Eval.keeps_pure (.float x)
      | stringLit pos s => exact Eval.keeps_pure (.string s)
      | charLit pos s => exact Eval.keeps_pure (.char s)
      | ident pos x =>
        refine Eval.keeps_ident (henv x) fun hx => ?_
        have hmem := hcov ⟨pos, x⟩ (List.mem_singleton_self _)
        intro pos' x' h
        cases h
        exact hmem.resolve_left (by simp [Bindings.has, hx])

/-! ## Declarations -/

theorem has_bound {d : Node} {v : Value} {env : Env} {x : String} :
    (d.bound v env).has x = true ↔ d.declared? = some x ∨ env.has x = true := by
  cases d with
  | letDecl | funDecl => rw [Node.bound, has_set, Node.declared?, Option.some_inj]
  | _ => simp [Node.bound, Node.declared?]

theorem EnvRespects.bound {E : Excuse} {env : Env} {d : Node} {v : Value} (henv : EnvRespects E env)
    (hv : Respects E v) : EnvRespects E (d.bound v env) := by
  cases d with
  | letDecl | funDecl => exact henv.set hv
  | _ => exact henv

/-- In an environment that covers a declaration, nothing is missed but what is excused. -/
theorem declaration_keeps {E : Excuse} (limit : Int) {d : Node} {env : Env} (hd : IsDeclaration d)
    (henv : EnvRespects E env) (hcov : Covers E env d.free) :
    DeclarationKeeps limit env (Respects E) (Excused E) d := by
  cases hd with
  | letDecl pos x hv => exact fun frames => eval_respects limit frames 0 hv henv hcov
  | exprStmt pos he => exact fun frames => eval_respects limit frames 0 he henv hcov
  | @funDecl pos f p ps b r hb =>
    refine respects_closure henv (hb.curry pos ps) fun o ho => ?_
    rw [Node.free_curry] at ho
    cases r with
    | false => exact .inr (hcov o ho)
    | true =>
      by_cases hf : o.val = f
      · exact .inl (congrArg some hf.symm)
      · exact .inr (hcov o (mem_unbound.mpr ⟨ho, hf⟩))

/-! ## Runs -/

/-- The occurrences that declarations are to blame for: each stands free in a declaration behind one of
the same name that failed. -/
def Blamed (ds : List Node) (os : List Outcome) (o : Located String) : Prop :=
  ∃ (i j : Nat) (d e : Node) (f : Located RuntimeFault), i < j ∧ ds[i]? = some d ∧
    d.declared? = some o.val ∧ os[i]? = some (.error f) ∧ ds[j]? = some e ∧ o ∈ e.free

theorem Blamed.cons {d : Node} {ds : List Node} {oc : Outcome} {os : List Outcome} {o : Located String}
    (h : Blamed ds os o) : Blamed (d :: ds) (oc :: os) o := by
  obtain ⟨i, j, d, e, f, hij, hd, hx, hf, he, ho⟩ := h
  exact ⟨i + 1, j + 1, d, e, f, Nat.succ_lt_succ hij, hd, hx, hf, he, ho⟩

/-- Along a run nothing is missed but what is excused, if the occurrences that its declarations are to
blame for are, and those of names in `failed`. -/
theorem Lockstep.respects {E : Excuse} {limit : Int} {frames : Nat} {c : Context} {env env' : Env}
    {ds : List Node} {bs : List (String × Typing)} {os : List Outcome}
    (h : Lockstep limit frames c env ds bs os env') (failed : String → Prop)
    (hds : ∀ d ∈ ds, IsDeclaration d)
    (henv : EnvRespects E env)
    (hcov : ∀ x, c.scopes.Declares x → env.has x = true ∨ failed x)
    (hfailed : ∀ o, failed o.val → (∃ d ∈ ds, o ∈ d.free) → E o) (hE : ∀ o, Blamed ds os o → E o) :
    EnvRespects E env' ∧ ∀ pos x, .error ⟨pos, .undefined x⟩ ∈ os → E ⟨pos, x⟩ := by
  induction h generalizing failed with
  | nil => exact ⟨henv, nofun⟩
  | @cons c c' env env₁ env'' d ds name t bs res o os hinfer hname heval hofrun _ ih =>
    have hd := hds d (List.mem_cons_self ..)
    obtain ⟨hfree, hdeclares⟩ := infer_declares hd hinfer
    have hcov' : Covers E env d.free := by
      intro oc hoc
      exact (hcov _ (hfree oc hoc)).imp_right fun hf => hfailed oc hf ⟨d, List.mem_cons_self .., hoc⟩
    have hstep := evaluated_declaration hd (lenient_excused E) (declaration_keeps limit hd henv hcov') heval
    have hds' : ∀ d' ∈ ds, IsDeclaration d' := fun d' hd' => hds d' (List.mem_cons_of_mem _ hd')
    have hE' : ∀ oc, Blamed ds os oc → E oc := fun oc hoc => hE oc hoc.cons
    have hlater : ∀ oc, failed oc.val → (∃ d' ∈ ds, oc ∈ d'.free) → E oc := fun oc hf ⟨d', hd', hoc⟩ =>
      hfailed oc hf ⟨d', List.mem_cons_of_mem _ hd', hoc⟩
    -- What an error on a missing name at this declaration says is known from its failure.
    have hhead : ∀ pos x, .error ⟨pos, .undefined x⟩ = o → E ⟨pos, x⟩ := by
      rintro pos x rfl
      obtain ⟨v, hv, -⟩ | ⟨f, hf, -, hex⟩ := hstep
      · rw [ofRun_undefined hofrun] at hv
        cases hv
      · rw [ofRun_undefined hofrun] at hf
        cases hf
        exact hex pos x rfl
    have hrest : EnvRespects E env'' ∧ ∀ pos x, .error ⟨pos, .undefined x⟩ ∈ os → E ⟨pos, x⟩ := by
      obtain ⟨v, rfl, rfl, hv⟩ | ⟨f, rfl, rfl, -⟩ := hstep
      · refine ih failed hds' (henv.bound hv) (fun x hx => ?_) hlater hE'
        rw [has_bound]
        rcases hdeclares x hx with hx | hx
        · exact (hcov x hx).imp_left .inr
        · exact .inl (.inl hx)
      · -- From here on the name of the declaration that failed may be missing.
        obtain ⟨g, rfl⟩ := ofRun_error hofrun
        refine ih (fun x => failed x ∨ d.declared? = some x) hds' henv (fun x hx => ?_) ?_ hE'
        · rcases hdeclares x hx with hx | hx
          · exact (hcov x hx).imp_right .inl
          · exact .inr (.inr hx)
        · rintro oc (hf | hf) hoc
          · exact hlater oc hf hoc
          · obtain ⟨e, he, hoc⟩ := hoc
            obtain ⟨j, hj⟩ := List.mem_iff_getElem?.mp he
            exact hE oc ⟨0, j + 1, d, e, g, Nat.succ_pos j, rfl, hf, rfl, hj, hoc⟩
    refine ⟨hrest.1, fun pos x hmem => ?_⟩
    rcases List.mem_cons.mp hmem with hx | hx
    · exact hhead pos x hx
    · exact hrest.2 pos x hx

/-- The occurrences that the declarations of a run are to blame for. -/
def Run.Blames (r : Run) (o : Located String) : Prop :=
  ∃ p, r.program = some p ∧ Blamed p.body r.outcomes o

/-- A session in which every name that has a type has a value, and values respect what is excused. -/
structure Session.Respects (E : Excuse) (s : Session) : Prop where
  bound : ∀ x, s.types.has x = true → s.values.has x = true
  values : EnvRespects E s.values

theorem declares_ofSeed {types : Frame} {x : String} (h : (Scopes.ofSeed types).Declares x) :
    types.has x = true := by
  unfold Scopes.ofSeed at h
  split at h
  · rcases Scopes.declares_cons.mp h with h | h <;> cases h
  · rcases Scopes.declares_cons.mp h with h | h
    · cases h
    · exact (Scopes.declares_cons.mp h).resolve_right nofun

section

variable {E : Excuse} {s : Session} {source : String} {r : Run}

/-- A run in such a session misses nothing but what is excused, if what it is to blame for is. -/
theorem run_respects (h : run source s.types s.values s.options.limit = .ok r) (hs : s.Respects E)
    (hE : ∀ o, r.Blames o → E o) :
    EnvRespects E r.env ∧ ∀ pos x, .error ⟨pos, .undefined x⟩ ∈ r.outcomes → E ⟨pos, x⟩ := by
  obtain ⟨hos, henv⟩ | ⟨p, a, hp, -, hds, hrun⟩ := run_lockstep h
  · rw [hos, henv]
    exact ⟨nofun, nofun⟩
  · refine hrun.respects (fun _ => False) hds hs.values (fun x hx => ?_) nofun
      fun o ho => hE o ⟨p, hp, ho⟩
    exact .inl (hs.bound x (declares_ofSeed hx))

theorem turn_respects (hs : s.Respects E)
    (hE : ∀ r, run source s.types s.values s.options.limit = .ok r → ∀ o, r.Blames o → E o) :
    (s.turn source).session.Respects E := by
  have hat : (s.at source).Respects E := ⟨hs.bound, hs.values⟩
  obtain ⟨-, hsame⟩ | ⟨r, hr, habsorb, -⟩ := turn_cases s source
  · rw [hsame]
    exact hat
  · rw [habsorb]
    refine ⟨fun x hx => absorb_types_has hat.bound hx, fun x v hx => ?_⟩
    rcases absorb_values_cases hx with hx | hx
    · exact (run_respects hr hs (hE r hr)).1 x v hx
    · exact hs.values x v hx

/-- Over the runs of a session nothing is missed but what is excused, if what they are to blame for is. -/
theorem runs_respect {sources : List String} (hs : s.Respects E)
    (hE : ∀ r, .ok r ∈ s.runs sources → ∀ o, r.Blames o → E o) :
    ∀ r, .ok r ∈ s.runs sources → ∀ pos x, .error ⟨pos, .undefined x⟩ ∈ r.outcomes → E ⟨pos, x⟩ := by
  induction sources generalizing s with
  | nil => exact nofun
  | cons source sources ih =>
    have hhead : ∀ r, run source s.types s.values s.options.limit = .ok r → ∀ o, r.Blames o → E o :=
      fun r hr => hE r (hr ▸ List.mem_cons_self ..)
    intro r hmem
    rcases List.mem_cons.mp hmem with hr | hr
    · exact (run_respects hr.symm hs (hhead r hr.symm)).2
    · exact ih (turn_respects hs hhead) (fun r hr => hE r (List.mem_cons_of_mem _ hr)) r hr

end

/-- Whenever a name turns out not to be bound, in a run of a fresh session, then the same or an earlier
run is to blame: it has a declaration of the name that failed, and the occurrence stands free in a later
declaration of the same text. -/
theorem undefined_blamed (reporter : Reporter) (path : String) (interactive : Bool) (options : Options)
    (sources : List String) (k : Nat) (r : Run) (pos : Pos) (x : String)
    (hr : ((Session.fresh reporter path interactive options).runs sources)[k]? = some (.ok r))
    (hx : ⟨pos, .undefined x⟩ ∈ r.runtimeErrors) :
    ∃ k' ≤ k, ∃ r', ((Session.fresh reporter path interactive options).runs sources)[k']? = some (.ok r') ∧
      r'.Blames ⟨pos, x⟩ := by
  let s := Session.fresh reporter path interactive options
  -- The excuse is that one of the runs so far is to blame.
  let E : Excuse := fun o => ∃ k' ≤ k, ∃ r', (s.runs sources)[k']? = some (.ok r') ∧ r'.Blames o
  have hs : s.Respects E := ⟨nofun, nofun⟩
  have hupto : s.runs (sources.take (k + 1)) = (s.runs sources).take (k + 1) := s.runs_take sources (k + 1)
  have hE : ∀ r', .ok r' ∈ s.runs (sources.take (k + 1)) → ∀ o, r'.Blames o → E o := by
    intro r' hr' o ho
    rw [hupto] at hr'
    obtain ⟨k', hk'⟩ := List.mem_iff_getElem?.mp hr'
    rw [List.getElem?_take] at hk'
    split at hk'
    next hlt => exact ⟨k', Nat.le_of_lt_succ hlt, r', hk', ho⟩
    next => cases hk'
  refine runs_respect hs hE r ?_ pos x (Run.mem_runtimeErrors.mp hx)
  rw [hupto]
  exact List.mem_iff_getElem?.mpr ⟨k, by rw [List.getElem?_take, if_pos (Nat.lt_succ_self k)]; exact hr⟩

/-- A function outlives the text in which a declaration of a name failed, and misses the name when it is
applied in the next text. -/
theorem undefined_blamed_closure :
    ∃ r, ((Session.fresh { style := .plain, fatal := false } "<in>" true {}).runs
        ["let x = 1 / 0;; let f y = x;;", "f 1;;"])[1]? = some (.ok r) ∧
      r.runtimeErrors = [⟨⟨1, 27⟩, .undefined "x"⟩] ∧
      ∃ k' ≤ 1, ∃ r', ((Session.fresh { style := .plain, fatal := false } "<in>" true {}).runs
        ["let x = 1 / 0;; let f y = x;;", "f 1;;"])[k']? = some (.ok r') ∧ r'.Blames ⟨⟨1, 27⟩, "x"⟩ := by
  have h : (((Session.fresh { style := .plain, fatal := false } "<in>" true {}).runs
      ["let x = 1 / 0;; let f y = x;;", "f 1;;"])[1]?.bind Except.toOption).map Run.runtimeErrors =
        some [⟨⟨1, 27⟩, .undefined "x"⟩] := by decide +kernel
  obtain ⟨r, hr, hfaults⟩ := Option.map_eq_some_iff.mp h
  obtain ⟨e, he, hr⟩ := Option.bind_eq_some_iff.mp hr
  cases e with
  | error c => cases hr
  | ok r' =>
    cases hr
    exact ⟨_, he, hfaults, undefined_blamed _ _ _ _ _ _ _ _ _ he (hfaults ▸ List.mem_singleton_self _)⟩

end Camlet
