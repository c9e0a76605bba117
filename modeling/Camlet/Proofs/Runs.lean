import Camlet.Proofs.Environments
import Camlet.Session.Basic

/-
  Runs, declaration by declaration. A run that gets as far as evaluation has analyzed every declaration
  without a fault and evaluated each of them, in the same order; an interactive session then keeps what
  was bound. What holds of types and values over a session is shown along these steps.
-/

namespace Camlet

open Stateful

/-- What the evaluation of a declaration came to, and the environment after it. -/
def evaluated (limit : Int) (frames : Nat) (d : Node) (env : Env) : Except Failure Value × Env :=
  match eval limit frames 0 d env with
  | .ok v env' => (.ok v, env')
  | .error f env' => (.error f, env')

/-- The environment after a declaration that has a value. -/
def Node.bound (d : Node) (v : Value) (env : Env) : Env :=
  match d with
  | .letDecl _ x _ | .funDecl _ x _ _ _ => env.set x v
  | _ => env

/-- What must be known of the parts of a declaration, for its value to satisfy `P` and its failure
`Q`. -/
def DeclarationKeeps (limit : Int) (env : Env) (P : Value → Prop) (Q : Failure → Prop) : Node → Prop
  | .letDecl _ _ e | .exprStmt _ e => ∀ frames, Eval.Keeps env (eval limit frames 0 e) P Q
  | .funDecl pos f (p :: ps) b r => P (.closure (if r then some f else none) p (.curry pos ps b) env)
  | _ => False

section

variable {limit : Int} {frames : Nat} {env env' : Env} {P : Value → Prop} {Q : Failure → Prop}
  {res : Except Failure Value}

theorem evaluated_letDecl {pos : Pos} {x : String} {v : Node} (hv : Eval.Keeps env (eval limit (frames + 1) 0 v) P Q)
    (h : evaluated limit (frames + 3) (.letDecl pos x v) env = (res, env')) :
    (∃ w, res = .ok w ∧ env' = env.set x w ∧ P w) ∨ ∃ f, res = .error f ∧ env' = env ∧ Q f := by
  unfold evaluated at h
  unfold Eval.Keeps at hv
  rw [eval, Eval.rule, Eval.letDecl, bind_run] at h
  cases hrun : eval limit (frames + 1) 0 v env with
  | ok w env₁ =>
    rw [hrun] at h hv
    obtain ⟨rfl, hw⟩ := hv
    cases h
    exact .inl ⟨w, rfl, rfl, hw⟩
  | error f env₁ =>
    rw [hrun] at h hv
    obtain ⟨rfl, hf⟩ := hv
    cases h
    exact .inr ⟨f, rfl, rfl, hf⟩

theorem evaluated_exprStmt {pos : Pos} {e : Node} (he : Eval.Keeps env (eval limit (frames + 1) 0 e) P Q)
    (h : evaluated limit (frames + 3) (.exprStmt pos e) env = (res, env')) :
    (∃ w, res = .ok w ∧ env' = env ∧ P w) ∨ ∃ f, res = .error f ∧ env' = env ∧ Q f := by
  unfold evaluated at h
  unfold Eval.Keeps at he
  rw [eval, Eval.rule] at h
  cases hrun : eval limit (frames + 1) 0 e env with
  | ok w env₁ =>
    rw [hrun] at h he
    obtain ⟨rfl, hw⟩ := he
    cases h
    exact .inl ⟨w, rfl, rfl, hw⟩
  | error f env₁ =>
    rw [hrun] at h he
    obtain ⟨rfl, hf⟩ := he
    cases h
    exact .inr ⟨f, rfl, rfl, hf⟩

/-- A declaration binds its value, or it fails and leaves the environment as it was. -/
theorem evaluated_declaration {d : Node} (hd : IsDeclaration d) (hQ : Eval.Lenient Q)
    (hkeeps : DeclarationKeeps limit env P Q d) (h : evaluated limit frames d env = (res, env')) :
    (∃ v, res = .ok v ∧ env' = d.bound v env ∧ P v) ∨ ∃ f, res = .error f ∧ env' = env ∧ Q f := by
  match frames with
  | 0 | 1 | 2 =>
    cases h
    exact .inr ⟨_, rfl, rfl, hQ _ nofun⟩
  | n + 3 =>
    cases hd with
    | letDecl => exact evaluated_letDecl (hkeeps (n + 1)) h
    | exprStmt => exact evaluated_exprStmt (hkeeps (n + 1)) h
    | funDecl pos f p ps r =>
      cases h
      exact .inl ⟨_, rfl, rfl, hkeeps⟩

end

/-- Declarations analyzed from the context `c` and evaluated from the environment `env`: the types that
were found under their names, what they came to, and the environment at the end. -/
inductive Lockstep (limit : Int) (frames : Nat) :
    (c : Context) → (env : Env) → List Node → List (String × Typing) → List Outcome → Env → Prop
  | nil {c : Context} {env : Env} : Lockstep limit frames c env [] [] [] env
  | cons {c c' : Context} {env env' env'' : Env} {d : Node} {ds : List Node} {name : String} {t : Typing}
    {bs : List (String × Typing)} {res : Except Failure Value} {o : Outcome} {os : List Outcome} :
    infer analysisDepth d c = .ok t c' → d.name? = some name →
    evaluated limit frames d env = (res, env') → Outcome.ofRun d res = .ok o →
    Lockstep limit frames c' env' ds bs os env'' →
    Lockstep limit frames c env (d :: ds) ((name, t) :: bs) (o :: os) env''

/-- A composed step of which the first part may crash goes well if both parts do. -/
theorem except_bind_eq_ok {ε α β : Type} {x : Except ε α} {f : α → Except ε β} {b : β} :
    (x >>= f) = .ok b ↔ ∃ a, x = .ok a ∧ f a = .ok b := by
  cases x with
  | ok a => exact ⟨fun h => ⟨a, rfl, h⟩, fun ⟨_, h, h'⟩ => by cases h; exact h'⟩
  | error e => exact ⟨nofun, fun ⟨_, h, _⟩ => nomatch h⟩

theorem toOption_eq_some {ε α : Type} {x : Except ε α} {a : α} : x.toOption = some a ↔ x = .ok a := by
  cases x <;> simp [Except.toOption]

/-- A declaration passes the analysis if there is no fault in all. -/
theorem declarations_cons {depth : Nat} {c : Context} {d : Node} {ds : List Node}
    {bs : List (String × Typing)} {ws : List (Located Warning)}
    (h : Analysis.declarations depth c (d :: ds) = .ok (bs, [], ws)) :
    ∃ t c' name bs', infer depth d c = .ok t c' ∧ d.name? = some name ∧ bs = (name, t) :: bs' ∧
      Analysis.declarations depth c' ds = .ok (bs', [], ws) := by
  rw [Analysis.declarations] at h
  cases hd : infer depth d c with
  | ok t c' =>
    simp only [hd] at h
    cases hname : d.name? with
    | none => simp [hname] at h
    | some name =>
      simp only [hname, except_bind_eq_ok] at h
      obtain ⟨⟨bs', fs, ws'⟩, hds, hbs⟩ := h
      cases hbs
      exact ⟨t, c', name, bs', rfl, rfl, rfl, hds⟩
  | error e c' =>
    cases e with
    | crash => simp [hd] at h
    | fault | tooDeep =>
      simp only [hd, except_bind_eq_ok] at h
      obtain ⟨⟨bs', fs, ws'⟩, -, hbs⟩ := h
      cases hbs

/-- Declarations are evaluated one by one. -/
theorem evaluateWithin_eq (limit : Int) (frames : Nat) (d : Node) (ds : List Node) (env : Env) :
    evaluateWithin frames limit (d :: ds) env =
      Outcome.ofRun d (evaluated limit frames d env).1 >>= fun o =>
        evaluateWithin frames limit ds (evaluated limit frames d env).2 >>= fun q =>
          pure (o :: q.1, q.2) := rfl

theorem evaluateWithin_cons {limit : Int} {frames : Nat} {env env'' : Env} {d : Node} {ds : List Node}
    {os : List Outcome} (h : evaluateWithin frames limit (d :: ds) env = .ok (os, env'')) :
    ∃ res env' o os', evaluated limit frames d env = (res, env') ∧ Outcome.ofRun d res = .ok o ∧
      os = o :: os' ∧ evaluateWithin frames limit ds env' = .ok (os', env'') := by
  rw [evaluateWithin_eq] at h
  obtain ⟨o, ho, hrest⟩ := except_bind_eq_ok.mp h
  obtain ⟨⟨os', e⟩, hos, heq⟩ := except_bind_eq_ok.mp hrest
  cases heq
  exact ⟨_, _, o, os', rfl, ho, rfl, hos⟩

theorem lockstep_of_run {limit : Int} {frames : Nat} {c : Context} {env env' : Env} {ds : List Node}
    {bs : List (String × Typing)} {ws : List (Located Warning)} {os : List Outcome}
    (ha : Analysis.declarations analysisDepth c ds = .ok (bs, [], ws))
    (he : evaluateWithin frames limit ds env = .ok (os, env')) :
    Lockstep limit frames c env ds bs os env' := by
  induction ds generalizing c env bs os with
  | nil =>
    cases ha
    cases he
    exact .nil
  | cons d ds ih =>
    obtain ⟨t, c', name, bs', hd, hname, rfl, hds⟩ := declarations_cons ha
    obtain ⟨res, env₁, o, os', hres, ho, rfl, hos⟩ := evaluateWithin_cons he
    exact .cons hd hname hres ho (ih hds hos)

/-- Evaluation starts under a limit: there are frames for it. -/
def Starts (limit : Int) : Prop :=
  ∀ body env, evaluate limit body env = evaluateWithin (frameBudget limit) limit body env

/-- An evaluation that does not start crashes, whatever it is given. -/
theorem evaluate_cases (limit : Int) :
    Starts limit ∨ ∃ c, ∀ body env, evaluate limit body env = .error c := by
  unfold Starts evaluate
  dsimp only
  split
  · exact .inr ⟨.limitOutOfRange, fun _ _ => rfl⟩
  · split
    · exact .inr ⟨.limitTooLow, fun _ _ => rfl⟩
    · exact .inl fun _ _ => rfl

theorem evaluate_starts {limit : Int} {body : List Node} {env : Env} {q : List Outcome × Env}
    (h : evaluate limit body env = .ok q) : Starts limit := by
  refine (evaluate_cases limit).resolve_right ?_
  rintro ⟨c, hcrash⟩
  rw [hcrash] at h
  cases h

/-- A run that evaluates takes its declarations step by step. -/
theorem run_lockstep {source : String} {types : Frame} {values : Env} {limit : Int} {r : Run}
    (h : run source types values limit = .ok r) :
    (r.outcomes = [] ∧ r.env = []) ∨
      ∃ p a, r.program = some p ∧ r.analysis = some a ∧ (∀ d ∈ p.body, IsDeclaration d) ∧
        Lockstep limit (frameBudget limit) ⟨.ofSeed types, []⟩ values p.body a.bindings r.outcomes r.env := by
  have hparse : ∀ p, (parseTokens (tokenize source)).program = some p → ∀ d ∈ p.body, IsDeclaration d :=
    fun p hp => parse_isDeclaration hp
  simp only [run] at h
  split at h
  next p _ hp =>
    obtain ⟨a, ha, hrest⟩ := except_bind_eq_ok.mp h
    split at hrest
    next hok =>
      obtain ⟨⟨os, env⟩, heval, hr⟩ := except_bind_eq_ok.mp hrest
      cases hr
      right
      obtain ⟨⟨bs, fs, ws⟩, hdecl, heq⟩ := except_bind_eq_ok.mp ha
      cases heq
      have hnil : fs = [] := by simpa [Analysis.ok] using hok
      subst hnil
      have heval' := (evaluate_starts heval p.body values).symm.trans heval
      exact ⟨p, _, rfl, rfl, hparse p hp, lockstep_of_run hdecl heval'⟩
    next =>
      cases hrest
      exact .inl ⟨rfl, rfl⟩
  next =>
    cases h
    exact .inl ⟨rfl, rfl⟩

/-! ## Outcomes -/

section

variable {d : Node} {res : Except Failure Value}

theorem ofRun_ok {v : Result} (h : Outcome.ofRun d res = .ok (.ok v)) :
    res = .ok v.value ∧ d.name? = some v.name := by
  cases res with
  | ok w =>
    simp only [Outcome.ofRun, Outcome.ofRun.named] at h
    split at h
    next hname =>
      cases h
      exact ⟨rfl, hname⟩
    next => cases h
  | error f =>
    cases f with
    | fault | crash => cases h
    | outOfFrames | tooLarge =>
      simp only [Outcome.ofRun, Outcome.ofRun.named] at h
      split at h <;> cases h

theorem ofRun_error {f : Failure} {o : Outcome} (h : Outcome.ofRun d (.error f) = .ok o) :
    ∃ g, o = .error g := by
  cases f with
  | fault g => cases h; exact ⟨g, rfl⟩
  | crash => cases h
  | outOfFrames | tooLarge =>
    simp only [Outcome.ofRun, Outcome.ofRun.named] at h
    split at h <;> cases h
    exact ⟨_, rfl⟩

/-- An error that says that a name is not bound is the failure of the evaluation itself. -/
theorem ofRun_undefined {pos : Pos} {x : String}
    (h : Outcome.ofRun d res = .ok (.error ⟨pos, .undefined x⟩)) :
    res = .error (.fault ⟨pos, .undefined x⟩) := by
  cases res with
  | ok w =>
    simp only [Outcome.ofRun, Outcome.ofRun.named] at h
    split at h <;> cases h
  | error f =>
    cases f with
    | fault => cases h; rfl
    | crash => cases h
    | outOfFrames | tooLarge =>
      simp only [Outcome.ofRun, Outcome.ofRun.named] at h
      split at h <;> cases h

end

theorem Run.mem_runtimeErrors {r : Run} {f : Located RuntimeFault} :
    f ∈ r.runtimeErrors ↔ .error f ∈ r.outcomes := by
  simp only [Run.runtimeErrors, List.mem_filterMap]
  constructor
  · rintro ⟨o, ho, hf⟩
    cases o with
    | error g => cases hf; exact ho
    | ok v => cases hf
  · exact fun h => ⟨_, h, rfl⟩

/-! ## What a session keeps -/

namespace Session

/-- A session that has bound nothing. -/
def fresh (reporter : Reporter) (path : String) (interactive : Bool) (options : Options) : Session :=
  { reporter, path, interactive, options }

/-- The session after some texts. -/
def after (s : Session) : List String → Session
  | [] => s
  | source :: sources => (s.turn source).session.after sources

/-- The runs of texts one after the other. -/
def runs (s : Session) : List String → List (Except Crash Run)
  | [] => []
  | source :: sources => run source s.types s.values s.options.limit :: (s.turn source).session.runs sources

theorem runs_take (s : Session) (sources : List String) (n : Nat) :
    s.runs (sources.take n) = (s.runs sources).take n := by
  induction sources generalizing s n with
  | nil => simp [runs]
  | cons source sources ih =>
    cases n with
    | zero => rfl
    | succ n => simp only [List.take_succ_cons, runs, ih]

end Session

/-- A session that has turned to a text. -/
def Session.at (s : Session) (source : String) : Session :=
  { s with reporter := s.reporter.register s.path source }

theorem absorb_unchanged (s : Session) (r : Run) :
    (s.absorb r).interactive = s.interactive ∧ (s.absorb r).options = s.options ∧
      (s.absorb r).reporter = s.reporter := by
  unfold Session.absorb
  split <;> exact ⟨rfl, rfl, rfl⟩

/-- The session after a text binds what it bound before, or also what a run of the text adds. -/
theorem turn_cases (s : Session) (source : String) :
    ((∃ e, (s.turn source).ending = .error e) ∧ (s.turn source).session = s.at source) ∨
      ∃ r, run source s.types s.values s.options.limit = .ok r ∧
        (s.turn source).session = (s.at source).absorb r ∧
        (s.reporter.fatal = false → (s.turn source).ending = .ok r) := by
  simp only [Session.turn]
  split
  next c _ => exact .inl ⟨⟨_, rfl⟩, rfl⟩
  next r hr =>
    split
    next e _ => exact .inl ⟨⟨e, rfl⟩, rfl⟩
    next =>
      right
      split
      next hfatal =>
        refine ⟨r, hr, rfl, fun hnot => ?_⟩
        have hf := ((Bool.and_eq_true _ _).mp hfatal).2
        rw [(absorb_unchanged _ r).2.2] at hf
        exact absurd (hnot.symm.trans hf) nofun
      next => exact ⟨r, hr, rfl, fun _ => rfl⟩

theorem Bindings.get?_reverse_cons {α : Type} (m : Bindings α) (x y : String) (v : α) :
    Bindings.get? ((x, v) :: m).reverse y =
      (Bindings.get? m.reverse y).or (if x = y then some v else none) := by
  rw [List.reverse_cons, Bindings.get?_append]
  rfl

theorem Bindings.get?_restrict {α : Type} (m : Bindings α) (keep : String → Bool) (x : String) :
    (m.restrict keep).get? x = if keep x = true then m.get? x else none := by
  unfold Bindings.restrict
  induction m with
  | nil => simp
  | cons e m ih =>
    by_cases hkeep : keep e.1 = true
    · simp only [List.filter_cons, hkeep, if_true, Bindings.get?, ih]
      by_cases hx : e.1 = x
      · simp [hx, hx ▸ hkeep]
      · simp [hx]
    · simp only [List.filter_cons, hkeep, Bool.false_eq_true, if_false, Bindings.get?, ih]
      by_cases hx : e.1 = x
      · simp [hx ▸ hkeep]
      · simp [hx]

/-! ### The bindings after a run -/

section

variable {s : Session} {r : Run} {a : Analysis} {x : String}

/-- A session that is not interactive keeps what it has, and so does any that gets no types. -/
theorem absorb_cases (s : Session) (r : Run) :
    s.absorb r = s ∨ s.interactive = true ∧ ∃ a, r.analysis = some a := by
  unfold Session.absorb
  split
  next a hi ha => exact .inr ⟨hi, a, ha⟩
  next => exact .inl rfl

/-- A name has the type it was last given, if it has a value that a declaration in the run gave it. -/
theorem absorb_types (hi : s.interactive = true) (ha : r.analysis = some a) (x : String) :
    (s.absorb r).types.get? x =
      (if Session.evaluated r x && Bindings.has r.env x then Bindings.get? a.bindings.reverse x else none).or
        (s.types.get? x) := by
  unfold Session.absorb
  rw [hi, ha]
  dsimp only
  rw [Bindings.get?_absorb, ← List.filter_reverse]
  exact congrArg (·.or (s.types.get? x))
    (Bindings.get?_restrict a.bindings.reverse (fun y => Session.evaluated r y && Bindings.has r.env y) x)

theorem absorb_values (hi : s.interactive = true) (ha : r.analysis = some a) (x : String) :
    (s.absorb r).values.get? x =
      (if Session.evaluated r x then r.env.get? x else none).or (s.values.get? x) := by
  unfold Session.absorb
  rw [hi, ha]
  dsimp only
  rw [Bindings.get?_absorb, Bindings.get?_restrict]

/-- A value that is bound after a run was bound by it or before. -/
theorem absorb_values_cases {v : Value} (h : (s.absorb r).values.get? x = some v) :
    r.env.get? x = some v ∨ s.values.get? x = some v := by
  rcases absorb_cases s r with heq | ⟨hi, a, ha⟩
  · exact .inr (heq ▸ h)
  · rw [absorb_values hi ha, Option.or_eq_some_iff] at h
    rcases h with h | ⟨-, h⟩
    · split at h
      · exact .inl h
      · cases h
    · exact .inr h

/-- A name that has a type after a run has a value, if that was so before. -/
theorem absorb_types_has (hs : ∀ y, s.types.has y = true → s.values.has y = true)
    (h : (s.absorb r).types.has x = true) : (s.absorb r).values.has x = true := by
  rcases absorb_cases s r with heq | ⟨hi, a, ha⟩
  · rw [heq] at h ⊢
    exact hs x h
  · rw [Bindings.has, absorb_types hi ha, Option.isSome_or, Bool.or_eq_true] at h
    rw [Bindings.has, absorb_values hi ha, Option.isSome_or, Bool.or_eq_true]
    rcases h with h | h
    · split at h
      next hkept =>
        obtain ⟨heval, henv⟩ := (Bool.and_eq_true _ _).mp hkept
        rw [if_pos heval]
        exact .inl henv
      next => cases h
    · exact .inr (hs x h)

end

end Camlet
