import Camlet.Proofs.Failures
import Camlet.Proofs.Likeness
import Camlet.Proofs.Surroundings
import Mathlib.Data.List.Forall2

/-
  Runs without an error. Such a run reads declarations that all pass the analysis and all have a value, one
  after the other, and every text of such declarations is run so. Declarations that succeed in one context
  and environment succeed, with the same types and with values like those, at other places and from any
  context and environment that can replace the first.
-/

namespace Camlet

open Stateful

/-- Declarations that all pass the analysis from the context `c`, and all have a value from the environment
`env` on: their types under their names, their results, and the context and environment at the end. -/
inductive Succeeds (limit : Int) (frames : Nat) :
    (c : Context) → (env : Env) → List Node → List (String × Typing) → List Result → Context → Env → Prop
  | nil {c : Context} {env : Env} : Succeeds limit frames c env [] [] [] c env
  | cons {c c₁ c' : Context} {env env₁ env' : Env} {d : Node} {ds : List Node} {x : String} {t : Typing}
    {v : Value} {bs : List (String × Typing)} {vs : List Result} :
    infer analysisDepth d c = .ok t c₁ → eval limit frames 0 d env = .ok v env₁ → d.name? = some x →
    Succeeds limit frames c₁ env₁ ds bs vs c' env' →
    Succeeds limit frames c env (d :: ds) ((x, t) :: bs) (⟨x, v⟩ :: vs) c' env'

section

variable {limit : Int} {frames : Nat} {c c' : Context} {env env' : Env} {ds : List Node}
  {bs : List (String × Typing)} {vs : List Result}

theorem evaluated_eq_ok {d : Node} {v : Value} {env₁ : Env} :
    evaluated limit frames d env = (.ok v, env₁) ↔ eval limit frames 0 d env = .ok v env₁ := by
  unfold evaluated
  cases eval limit frames 0 d env <;> simp

/-- Declarations without a fault of evaluation have succeeded. -/
theorem Lockstep.succeeds {os : List Outcome} (h : Lockstep limit frames c env ds bs os env')
    (hos : os.filterMap Outcome.fault? = []) :
    ∃ c', Succeeds limit frames c env ds bs (os.filterMap Outcome.result?) c' env' := by
  induction h with
  | nil => exact ⟨_, .nil⟩
  | @cons c c₁ env env₁ env'' d ds x t bs res o os hinfer hname heval ho _ ih =>
    cases o with
    | error f => cases hos
    | ok v =>
      obtain ⟨c', hrest⟩ := ih hos
      obtain ⟨hres, hv⟩ := ofRun_ok ho
      obtain rfl : x = v.name := Option.some_inj.mp (hname.symm.trans hv)
      rw [hres] at heval
      exact ⟨c', .cons hinfer (evaluated_eq_ok.mp heval) hname hrest⟩

theorem Succeeds.declarations (h : Succeeds limit frames c env ds bs vs c' env') :
    ∃ ws, Analysis.declarations analysisDepth c ds = .ok (bs, [], ws) := by
  induction h with
  | nil => exact ⟨_, rfl⟩
  | cons hinfer _ hname _ ih =>
    obtain ⟨ws, hws⟩ := ih
    refine ⟨ws, ?_⟩
    simp only [Analysis.declarations, hinfer, hname, hws]
    rfl

theorem Succeeds.evaluateWithin (h : Succeeds limit frames c env ds bs vs c' env') :
    evaluateWithin frames limit ds env = .ok (vs.map .ok, env') := by
  induction h with
  | nil => rfl
  | @cons c c₁ c' env env₁ env' d ds x t v bs vs _ heval hname _ ih =>
    have ho : Outcome.ofRun d (.ok v) = .ok (.ok ⟨x, v⟩) := by
      simp only [Outcome.ofRun, Outcome.ofRun.named, hname]
    rw [evaluateWithin_eq, evaluated_eq_ok.mpr heval, ho]
    simp only [Bind.bind, Except.bind, ih]
    rfl

/-- Declarations succeed one part after the other. -/
theorem Succeeds.append_inv {ds' : List Node} (h : Succeeds limit frames c env (ds ++ ds') bs vs c' env') :
    ∃ bs₁ bs₂ vs₁ vs₂ c₁ env₁, bs = bs₁ ++ bs₂ ∧ vs = vs₁ ++ vs₂ ∧
      Succeeds limit frames c env ds bs₁ vs₁ c₁ env₁ ∧ Succeeds limit frames c₁ env₁ ds' bs₂ vs₂ c' env' := by
  induction ds generalizing c env bs vs with
  | nil => exact ⟨[], bs, [], vs, c, env, rfl, rfl, .nil, h⟩
  | cons d ds ih =>
    cases h with
    | cons hinfer heval hname hrest =>
      obtain ⟨bs₁, bs₂, vs₁, vs₂, c₁, env₁, rfl, rfl, h₁, h₂⟩ := ih hrest
      exact ⟨_ :: bs₁, bs₂, _ :: vs₁, vs₂, c₁, env₁, rfl, rfl, .cons hinfer heval hname h₁, h₂⟩

/-- Results under the same name, with values that are alike. -/
structure Result.Alike (r r' : Result) : Prop where
  name : r.name = r'.name
  value : r.value.Alike r'.value

theorem Result.Alike.text {r r' : Result} (h : r.Alike r') : r.text = r'.text := by
  rw [Result.text, Result.text, h.name, h.value.kind, h.value.render]

/-- Declarations that succeed do so at other places, from what can replace their context and in an
environment like theirs. -/
theorem Succeeds.moved (h : Succeeds limit frames c env ds bs vs c' env') (hds : ∀ d ∈ ds, IsDeclaration d)
    {k : Context} {e : Env} (hc : ReplacedBy c k) (henv : EnvAlike env e) (f : Pos → Pos) :
    ∃ vs' k' e', Succeeds limit frames k e (ds.map (Node.moved f)) bs vs' k' e' ∧
      List.Forall₂ Result.Alike vs vs' ∧ ReplacedBy c' k' ∧ EnvAlike env' e' := by
  induction h generalizing k e with
  | nil => exact ⟨[], k, e, .nil, .nil, hc, henv⟩
  | @cons c c₁ c' env env₁ env' d ds x t v bs vs hinfer heval hname _ ih =>
    obtain ⟨hd, hds⟩ := List.forall_mem_cons.mp hds
    -- The analysis and the evaluation of a declaration do not meet: each has its simulation.
    obtain ⟨t', k₁, hinfer', rfl, hc₁⟩ := infer_declaration_mirrors analysisDepth hd f c k hc t c₁ hinfer
    obtain ⟨w, e₁, heval', hvw, henv₁⟩ := eval_alike limit frames 0 d f env e henv v env₁ heval
    obtain ⟨vs', k', e', hrest, hvs, hc', henv'⟩ := ih hds hc₁ henv₁
    exact ⟨_, k', e', .cons hinfer' heval' (d.name?_moved f ▸ hname) hrest, .cons ⟨rfl, hvw⟩ hvs, hc', henv'⟩

end

/-! ## Runs -/

/-- The types of the declarations that passed the analysis, under their names. -/
def Run.bindings (r : Run) : List (String × Typing) := (r.analysis.map (·.bindings)).getD []

theorem Run.ok_iff {r : Run} :
    r.ok = true ↔ r.syntaxErrors = [] ∧ r.typeErrors = [] ∧ r.runtimeErrors = [] := by
  simp [Run.ok, Run.errors]

theorem filterMap_fault?_ok (vs : List Result) : (vs.map Except.ok).filterMap Outcome.fault? = [] := by
  induction vs with
  | nil => rfl
  | cons v vs ih => exact ih

theorem filterMap_result?_ok (vs : List Result) : (vs.map Except.ok).filterMap Outcome.result? = vs := by
  induction vs with
  | nil => rfl
  | cons v vs ih => exact congrArg (v :: ·) ih

section

variable {source : String} {limit : Int} {types : Frame} {values : Env}

/-- There is a program if there is a declaration. -/
theorem parse_program (source : String) :
    (parse source).program =
      (parse source).declarations.head?.map fun d => ⟨d.pos, (parse source).declarations⟩ := by
  unfold parse parseTokens parseWithin
  dsimp only
  generalize Parsed.collect _ _ _ _ = q
  obtain ⟨ds, fs⟩ := q
  cases ds <;> rfl

/-- A text that is read without a fault has the program that its declarations make, if there are any. -/
theorem accepted?_eq (herrors : (parse source).errors = []) :
    accepted? source =
      (parse source).declarations.head?.map fun d => ⟨d.pos, (parse source).declarations⟩ := by
  rw [accepted?, herrors, ← parse_program]
  rfl

theorem accepted?_errors {p : Program} (hp : accepted? source = some p) :
    (parse source).errors = [] ∧ p.body = (parse source).declarations := by
  have herrors : (parse source).errors = [] := by
    unfold accepted? at hp
    split at hp
    next herrors => exact List.isEmpty_iff.mp herrors
    next => cases hp
  rw [accepted?_eq herrors] at hp
  obtain ⟨d, -, rfl⟩ := Option.map_eq_some_iff.mp hp
  exact ⟨herrors, rfl⟩

/-- An analysis without a fault has passed every declaration. -/
theorem analyze_eq_ok {body : List Node} {a : Analysis} (h : analyze body types = .ok a) (hok : a.ok = true) :
    ∃ ws, Analysis.declarations analysisDepth ⟨.ofSeed types, []⟩ body = .ok (a.bindings, [], ws) := by
  obtain ⟨⟨bs, fs, ws⟩, hdecl, heq⟩ := except_bind_eq_ok.mp h
  cases heq
  obtain rfl : fs = [] := List.isEmpty_iff.mp hok
  exact ⟨ws, hdecl⟩

/-- A run without an error reads declarations that succeed. -/
theorem run_succeeds {r : Run} (h : run source [] [] limit = .ok r) (hok : r.ok = true) :
    (parse source).errors = [] ∧ ((parse source).declarations ≠ [] → Starts limit) ∧
      ∃ c, Succeeds limit (frameBudget limit) ⟨[[]], []⟩ [] (parse source).declarations r.bindings r.results c
        r.env := by
  obtain ⟨hreading, htype, hruntime⟩ := Run.ok_iff.mp hok
  cases run_ends_in h with
  | unread hp =>
    have herrors : (parse source).errors = [] := hreading
    have hnone : (parse source).declarations = [] := by
      rw [accepted?_eq herrors] at hp
      simpa using hp
    rw [hnone]
    exact ⟨herrors, fun hne => absurd rfl hne, _, .nil⟩
  | refused _ _ hrefused =>
    have hnone : Analysis.errors _ = [] := htype
    simp [Analysis.ok, hnone] at hrefused
  | evaluated hp ha hpassed hos =>
    obtain ⟨herrors, hbody⟩ := accepted?_errors hp
    have hstarts := evaluate_starts hos
    obtain ⟨ws, hdecl⟩ := analyze_eq_ok ha hpassed
    rw [hstarts] at hos
    rw [← hbody]
    exact ⟨herrors, fun _ => hstarts, (lockstep_of_run hdecl hos).succeeds hruntime⟩

/-- A text of declarations that succeed is run without an error. -/
theorem run_of_succeeds {bs : List (String × Typing)} {vs : List Result} {c : Context} {env : Env}
    (herrors : (parse source).errors = []) (hstarts : (parse source).declarations ≠ [] → Starts limit)
    (h : Succeeds limit (frameBudget limit) ⟨.ofSeed types, []⟩ values (parse source).declarations bs vs c
      env) :
    ∃ r, run source types values limit = .ok r ∧ r.ok = true ∧ r.results = vs ∧ r.bindings = bs ∧
      ((parse source).declarations = [] → r.analysis = none) ∧
      ((parse source).declarations ≠ [] → r.env = env ∧ ∃ a, r.analysis = some a) := by
  have haccepted := accepted?_eq herrors
  generalize (parse source).declarations = ds at *
  cases ds with
  | nil =>
    cases h
    refine ⟨_, run_not_accepted haccepted types values limit, ?_, rfl, rfl, fun _ => rfl,
      fun hne => absurd rfl hne⟩
    exact Run.ok_iff.mpr ⟨herrors, rfl, rfl⟩
  | cons d ds =>
    obtain ⟨ws, hws⟩ := h.declarations
    have ha : analyze (d :: ds) types = .ok ⟨(bs.getLast?).bind (·.2), bs, [], ws.reverse⟩ := by
      rw [analyze, analyzeWithin, hws]
      rfl
    have hrun := run_accepted haccepted ha values limit
    rw [hstarts (List.cons_ne_nil _ _), h.evaluateWithin] at hrun
    refine ⟨_, hrun, Run.ok_iff.mpr ⟨rfl, rfl, filterMap_fault?_ok vs⟩, filterMap_result?_ok vs, rfl,
      fun hnil => absurd hnil (List.cons_ne_nil _ _), fun _ => ⟨rfl, _, rfl⟩⟩

end

end Camlet
