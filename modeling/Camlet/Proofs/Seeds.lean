import Camlet.Proofs.Lookups
import Camlet.Proofs.Similarity
import Camlet.Proofs.Updates

/-
  What a run takes from its surroundings. Two runs of a text are compared that start from different types and
  values. They come to the same if these agree on the names that the declarations want; and a name that was
  declared in front need not agree, if its declaration passed the analysis and came to a value. A declaration
  that fails hides nothing: what its name was bound to before is seen again by the declarations that follow.
-/

namespace Camlet

open Stateful

/-! ## Outcomes side by side -/

/-- What is reported of an outcome: its fault, or its name, its kind and its value as it is printed. -/
def Outcome.shown : Outcome → Except (Located RuntimeFault) (String × Kind × Except Crash String)
  | .error f => .error f
  | .ok r => .ok (r.name, r.value.kind, r.value.render)

/-- The same fault, or similar values under the same name. -/
inductive Outcome.Similar : Outcome → Outcome → Prop
  | error (f : Located RuntimeFault) : Similar (.error f) (.error f)
  | ok (name : String) {v w : Value} : v.Similar w → Similar (.ok ⟨name, v⟩) (.ok ⟨name, w⟩)

theorem Outcome.Similar.shown {o o' : Outcome} (h : o.Similar o') : o.shown = o'.shown := by
  cases h with
  | error f => rfl
  | ok name h => rw [Outcome.shown, Outcome.shown, h.kind, h.render]

theorem shown_similar {os os' : List Outcome} (h : List.Forall₂ Outcome.Similar os os') :
    os.map Outcome.shown = os'.map Outcome.shown := by
  induction h with
  | nil => rfl
  | cons ho _ ih => rw [List.map_cons, List.map_cons, ho.shown, ih]

/-- A declaration among `ds` declares `x`, and came to a value. -/
def Valued (ds : List Node) (os : List Outcome) (x : String) : Prop :=
  ∃ p ∈ ds.zip os, p.1.declared? = some x ∧ p.2.isOk = true

instance (ds : List Node) (os : List Outcome) (x : String) : Decidable (Valued ds os x) :=
  inferInstanceAs (Decidable (∃ p ∈ ds.zip os, p.1.declared? = some x ∧ p.2.isOk = true))

theorem valued_cons {d : Node} {ds : List Node} {o : Outcome} {os : List Outcome} {x : String} :
    Valued (d :: ds) (o :: os) x ↔ (d.declared? = some x ∧ o.isOk = true) ∨ Valued ds os x := by
  simp only [Valued, List.zip_cons_cons, List.exists_mem_cons_iff]

/-- Evaluations that end in the same way: with the same crash, or with similar outcomes in environments that
are similar where `N` holds and at the names that were given a value. -/
inductive SameOutcomes (N : String → Prop) (ds : List Node) :
    Except Crash (List Outcome × Env) → Except Crash (List Outcome × Env) → Prop
  | crash (c : Crash) : SameOutcomes N ds (.error c) (.error c)
  | ok {os os' : List Outcome} {env env' : Env} : List.Forall₂ Outcome.Similar os os' →
    EnvSimilar (fun x => N x ∨ Valued ds os x) env env' → SameOutcomes N ds (.ok (os, env)) (.ok (os', env'))

/-! ## Declarations side by side -/

section

variable {limit : Int} {frames : Nat} {N : String → Prop} {env env' env₁ env₁' : Env} {d : Node}
  {ds : List Node}

theorem evaluated_bound (hd : IsDeclaration d) {v : Value} (h : evaluated limit frames d env = (.ok v, env₁)) :
    env₁ = d.bound v env := by
  obtain ⟨w, hw, henv, -⟩ | ⟨f, hf, -⟩ :=
    evaluated_declaration hd lenient_true (@declaration_fits .nothing env d limit hd backed_nothing) h
  · cases hw
    exact henv
  · cases hf

theorem Node.bound_similar {x : String} {v w : Value} (hvw : v.Similar w) (hx : d.declared? = some x) :
    SimilarAt (d.bound v env) (d.bound w env') x := by
  cases d with
  | letDecl | funDecl =>
    cases hx
    exact .set_same hvw x
  | _ => cases hx

/-- A declaration fails in the same way in environments that are similar at the names that it wants, or it
comes to similar values there, and its name is bound to them. -/
theorem evaluated_similar (limit : Int) (frames : Nat) (hd : IsDeclaration d) (henv : EnvSimilar N env env')
    (hN : ∀ x ∈ d.wanted, N x) :
    (∃ f env₁ env₁', evaluated limit frames d env = (.error f, env₁) ∧
        evaluated limit frames d env' = (.error f, env₁') ∧ EnvSimilar N env₁ env₁') ∨
      ∃ v w env₁ env₁', evaluated limit frames d env = (.ok v, env₁) ∧
        evaluated limit frames d env' = (.ok w, env₁') ∧ v.Similar w ∧
        EnvSimilar (fun x => N x ∨ d.declared? = some x) env₁ env₁' := by
  have hend := eval_steady limit frames 0 d N hN env env' henv
  generalize hrun : eval limit frames 0 d env = r, hrun' : eval limit frames 0 d env' = r' at hend
  cases hend with
  | @error f env₁ env₁' henv₁ =>
    exact .inl ⟨f, env₁, env₁', by simp only [evaluated, hrun], by simp only [evaluated, hrun'], henv₁⟩
  | @ok v w env₁ env₁' hvw henv₁ =>
    have heval : evaluated limit frames d env = (.ok v, env₁) := evaluated_eq_ok.mpr hrun
    have heval' : evaluated limit frames d env' = (.ok w, env₁') := evaluated_eq_ok.mpr hrun'
    refine .inr ⟨v, w, env₁, env₁', heval, heval', hvw, fun x hx => ?_⟩
    rcases hx with hx | hx
    · exact henv₁ x hx
    · rw [evaluated_bound hd heval, evaluated_bound hd heval']
      exact Node.bound_similar hvw hx

/-- A declaration of `x` is behind: evaluating the declarations in front has given it a value. -/
def Revalued (evaluation : List Node → Env → Except Crash (List Outcome × Env)) (env : Env) (x : String)
    (before : List Node) : Prop :=
  ∀ q ∈ (evaluation before env).toOption, Valued before q.1 x

instance (evaluation : List Node → Env → Except Crash (List Outcome × Env)) (env : Env) (x : String) :
    DecidablePred (Revalued evaluation env x) := fun before =>
  inferInstanceAs (Decidable (∀ q ∈ (evaluation before env).toOption, Valued before q.1 x))

theorem not_revalued_nil {x : String} : ¬ Revalued (evaluateWithin frames limit) env x [] := by
  intro h
  obtain ⟨p, hp, -⟩ := h ([], env) rfl
  cases hp

theorem Revalued.step {before : List Node} {x : String} {res : Except Failure Value} {o : Outcome}
    (h : Revalued (evaluateWithin frames limit) env x (d :: before))
    (heval : evaluated limit frames d env = (res, env₁)) (ho : Outcome.ofRun d res = .ok o) :
    (d.declared? = some x ∧ o.isOk = true) ∨ Revalued (evaluateWithin frames limit) env₁ x before := by
  by_cases hx : d.declared? = some x ∧ o.isOk = true
  · exact .inl hx
  · refine .inr fun q hq => (valued_cons.mp (h (o :: q.1, q.2) ?_)).resolve_left hx
    rw [evaluateWithin_eq, heval, ho, toOption_eq_some.mp hq]
    rfl

/-- What is left to do of an evaluation after a declaration that came to the outcomes given. -/
theorem SameOutcomes.cons {res res' : Except Crash (List Outcome × Env)} {o o' : Outcome}
    (ho : o.Similar o')
    (h : SameOutcomes (fun x => N x ∨ d.declared? = some x ∧ o.isOk = true) ds res res') :
    SameOutcomes N (d :: ds) (res >>= fun q => pure (o :: q.1, q.2))
      (res' >>= fun q => pure (o' :: q.1, q.2)) := by
  cases h with
  | crash c => exact .crash c
  | ok hos henv =>
    refine .ok (.cons ho hos) (henv.mono fun x hx => ?_)
    rw [valued_cons] at hx
    exact or_assoc.mpr hx

/-- Declarations come to the same in environments that are similar at the names which a declaration wants, but
for those that were given a value in front of it. -/
theorem evaluateWithin_similar (hds : ∀ d ∈ ds, IsDeclaration d) (henv : EnvSimilar N env env')
    (h : ∀ before d after, ds = before ++ d :: after → ∀ x ∈ d.wanted,
      N x ∨ Revalued (evaluateWithin frames limit) env x before) :
    SameOutcomes N ds (evaluateWithin frames limit ds env) (evaluateWithin frames limit ds env') := by
  -- On the declarations; where one comes to a value, `N` grows by the name that it declares.
  induction ds generalizing N env env' with
  | nil => exact .ok .nil (henv.mono fun x hx => hx.resolve_right fun ⟨_, hp, _⟩ => by cases hp)
  | cons d ds ih =>
    obtain ⟨hd, hds⟩ := List.forall_mem_cons.mp hds
    have hN : ∀ x ∈ d.wanted, N x := fun x hx => (h [] d ds rfl x hx).resolve_right not_revalued_nil
    -- What a later declaration wants was given its value by this one, or by one between them.
    have hlater : ∀ {res env₁ o}, evaluated limit frames d env = (res, env₁) → Outcome.ofRun d res = .ok o →
        ∀ (before : List Node) e after, ds = before ++ e :: after → ∀ x ∈ e.wanted,
          (N x ∨ d.declared? = some x ∧ o.isOk = true) ∨
            Revalued (evaluateWithin frames limit) env₁ x before := by
      intro res env₁ o heval ho before e after hsplit x hx
      rw [or_assoc]
      exact (h (d :: before) e after (congrArg (d :: ·) hsplit) x hx).imp_right fun hre => hre.step heval ho
    rw [evaluateWithin_eq, evaluateWithin_eq]
    obtain ⟨f, env₁, env₁', heval, heval', henv₁⟩ | ⟨v, w, env₁, env₁', heval, heval', hvw, henv₁⟩ :=
      evaluated_similar limit frames hd henv hN
    · rw [heval, heval']
      cases ho : Outcome.ofRun d (.error f) with
      | error c => exact .crash c
      | ok o =>
        obtain ⟨g, rfl⟩ := ofRun_error ho
        refine SameOutcomes.cons (.error g) (ih hds (henv₁.mono fun x hx => ?_) (hlater heval ho))
        exact hx.resolve_right fun ⟨_, hok⟩ => by cases hok
    · rw [heval, heval']
      obtain ⟨name, hname⟩ := hd.name?_isSome
      have ho : ∀ u : Value, Outcome.ofRun d (.ok u) = .ok (.ok ⟨name, u⟩) := fun u => by
        rw [Outcome.ofRun, Outcome.ofRun.named, hname]
      rw [ho, ho]
      refine SameOutcomes.cons (.ok name hvw) (ih hds (henv₁.mono fun x hx => ?_) (hlater heval (ho v)))
      exact hx.imp_right And.left

theorem evaluate_similar (hds : ∀ d ∈ ds, IsDeclaration d) (henv : EnvSimilar N env env')
    (h : ∀ before d after, ds = before ++ d :: after → ∀ x ∈ d.wanted,
      N x ∨ Revalued (evaluate limit) env x before) :
    SameOutcomes N ds (evaluate limit ds env) (evaluate limit ds env') := by
  rcases evaluate_cases limit with hstarts | ⟨c, hcrash⟩
  · have heq : evaluate limit = evaluateWithin (frameBudget limit) limit :=
      funext fun body => funext fun env => hstarts body env
    rw [heq] at h ⊢
    exact evaluateWithin_similar hds henv h
  · rw [hcrash, hcrash]
    exact .crash c

end

/-! ## Runs side by side -/

/-- Runs that are reported in the same way. Their environments are similar where `N` holds, and at the names of
the declarations that came to a value. -/
structure Run.Similar (N : String → Prop) (r r' : Run) : Prop where
  tokens : r.tokens = r'.tokens
  program : r.program = r'.program
  syntaxErrors : r.syntaxErrors = r'.syntaxErrors
  analysis : r.analysis = r'.analysis
  outcomes : r.outcomes.map Outcome.shown = r'.outcomes.map Outcome.shown
  env : ∀ x, N x ∨ (∃ p, r.program = some p ∧ Valued p.body r.outcomes x) → SimilarAt r.env r'.env x

/-- Runs that crash in the same way, or come to the same. -/
inductive SameRuns (N : String → Prop) : Except Crash Run → Except Crash Run → Prop
  | crash (c : Crash) : SameRuns N (.error c) (.error c)
  | ok {r r' : Run} : r.Similar N r' → SameRuns N (.ok r) (.ok r')

/-- No fault is found in reading the text nor in its analysis, so that it is evaluated. -/
def Evaluates (source : String) (types : Frame) : Prop :=
  ∃ p a, accepted? source = some p ∧ analyze p.body types = .ok a ∧ a.ok = true

/-- A declaration of `x` is behind, and the analysis has passed one. -/
def Passed (types : Frame) (x : String) (before : List Node) : Prop :=
  (∃ d ∈ before, d.declared? = some x) ∧
    ∀ a ∈ (analyze before types).toOption, Bindings.has a.bindings x = true

instance (types : Frame) (x : String) : DecidablePred (Passed types x) := fun before =>
  inferInstanceAs (Decidable ((∃ d ∈ before, d.declared? = some x) ∧
    ∀ a ∈ (analyze before types).toOption, Bindings.has a.bindings x = true))

section

variable {source : String} {x : String} {types types' : Frame} {values values' : Env} {limit : Int}
  {N : String → Prop} {p : Program}

theorem Passed.redeclared {before : List Node} (h : Passed types x before) (hx : x ≠ "_") (hdash : x ≠ "-") :
    Redeclared analysisDepth ⟨.ofSeed types, []⟩ before x := by
  refine ⟨hx, hdash, fun bs fs ws hdecls => ?_⟩
  refine h.2 ⟨bs.getLast?.bind (·.2), bs, fs, ws.reverse⟩ ?_
  rw [analyze, analyzeWithin, hdecls]
  rfl

/-- A program is analyzed alike with types that agree on the names which a declaration wants, but for those that
were declared in front of it. -/
theorem accepted_analyze_alike (hp : accepted? source = some p)
    (h : ∀ before d after, (parse source).declarations = before ++ d :: after → ∀ x ∈ d.wanted,
      types.get? x = types'.get? x ∨ (x ≠ "_" ∧ Passed types x before)) :
    analyze p.body types = analyze p.body types' := by
  obtain ⟨herrors, hbody⟩ := accepted?_errors hp
  refine analyze_alike (accepted?_isDeclaration hp) fun before d after hsplit x hx => ?_
  rw [hbody] at hsplit
  refine (h before d after hsplit x hx).imp_right fun ⟨hne, hpassed⟩ => hpassed.redeclared hne ?_
  rintro rfl
  obtain ⟨e, he, hdash⟩ := hpassed.1
  exact parse_declared_ne_dash herrors e (hsplit ▸ List.mem_append_left _ he) hdash

/-- Runs of a text come to the same if the names that its declarations want have the same types and similar
values, but for those that were declared in front. -/
theorem runs_alike (henv : EnvSimilar N values values')
    (htypes : ∀ before d after, (parse source).declarations = before ++ d :: after → ∀ x ∈ d.wanted,
      types.get? x = types'.get? x ∨ (x ≠ "_" ∧ Passed types x before))
    (hvalues : Evaluates source types → ∀ before d after, (parse source).declarations = before ++ d :: after →
      ∀ x ∈ d.wanted, N x ∨ Revalued (evaluate limit) values x before) :
    SameRuns N (run source types values limit) (run source types' values' limit) := by
  cases hp : accepted? source with
  | none =>
    -- Nothing is analyzed, and the environments of both runs are empty.
    rw [run_not_accepted hp, run_not_accepted hp]
    exact .ok ⟨rfl, rfl, rfl, rfl, rfl, fun x _ => .of_eq rfl⟩
  | some p =>
    rw [run_of_accepted hp, run_of_accepted hp, accepted_analyze_alike hp htypes]
    cases ha : analyze p.body types' with
    | error c => exact .crash c
    | ok a =>
      cases hok : a.ok with
      | false =>
        simp only [Bind.bind, Except.bind, hok]
        exact .ok ⟨rfl, rfl, rfl, rfl, rfl, fun x _ => .of_eq rfl⟩
      | true =>
        have hevaluates : Evaluates source types :=
          ⟨p, a, hp, (accepted_analyze_alike hp htypes).trans ha, hok⟩
        have hsame := evaluate_similar (accepted?_isDeclaration hp) henv fun before d after hsplit =>
          hvalues hevaluates before d after ((accepted?_errors hp).2.symm.trans hsplit)
        simp only [Bind.bind, Except.bind, hok, if_pos]
        generalize evaluate limit p.body values = res, evaluate limit p.body values' = res' at hsame
        cases hsame with
        | crash c => exact .crash c
        | ok hos henv =>
          refine .ok ⟨rfl, rfl, rfl, rfl, shown_similar hos, fun x hx => henv x (hx.imp_right ?_)⟩
          rintro ⟨q, hq, hvalued⟩
          cases hq
          exact hvalued

theorem run_reports {r : Run} (hp : accepted? source = some p)
    (h : run source types values limit = .ok r) :
    r.syntaxErrors = [] ∧ ∃ a, analyze p.body types = .ok a ∧ r.analysis = some a := by
  cases run_ends_in h with
  | unread hnone => cases hnone.symm.trans hp
  | refused hq ha | evaluated hq ha =>
    obtain rfl := Option.some_inj.mp (hq.symm.trans hp)
    exact ⟨rfl, _, ha, rfl⟩

end

/-- What a text comes to depends on its surroundings only in the names that its declarations want. Where the
types and the values that two runs start from agree on these, the runs crash in the same way, or they are
reported in the same way: the same faults, the same analysis, and results of the same names and kinds that are
printed alike. Their environments agree afterwards where they agreed before, and on every name of a declaration
that came to a value. To agree on a value is to bind values that are equal but for what closures captured and
their bodies do not want. -/
theorem run_unrelated (source : String) (types types' : Frame) (values values' : Env) (limit : Int)
    (h : ∀ d ∈ (parse source).declarations, ∀ x ∈ d.wanted,
      types.get? x = types'.get? x ∧ SimilarAt values values' x) :
    SameRuns (SimilarAt values values') (run source types values limit) (run source types' values' limit) := by
  have hmem : ∀ {before d after}, (parse source).declarations = before ++ d :: after →
      d ∈ (parse source).declarations := fun hsplit =>
    hsplit ▸ List.mem_append_right _ List.mem_cons_self
  exact runs_alike (fun _ hx => hx) (fun _ d _ hsplit x hx => .inl (h d (hmem hsplit) x hx).1)
    fun _ _ d _ hsplit x hx => .inl (h d (hmem hsplit) x hx).2

/-- A name that a text does not mention changes nothing. -/
theorem run_unrelated_extra :
    (∀ d ∈ (parse "let f y = x + y;; f 2;;").declarations, ∀ x ∈ d.wanted,
      Bindings.get? [("x", some Ty.int)] x = Bindings.get? [("z", some .string), ("x", some .int)] x ∧
        SimilarAt [("x", .int 1)] [("z", .string "a"), ("x", .int 1)] x) ∧
    SameRuns (SimilarAt [("x", .int 1)] [("z", .string "a"), ("x", .int 1)])
      (run "let f y = x + y;; f 2;;" [("x", some .int)] [("x", .int 1)] 1000)
      (run "let f y = x + y;; f 2;;" [("z", some .string), ("x", some .int)]
        [("z", .string "a"), ("x", .int 1)] 1000) := by
  have hwanted : (parse "let f y = x + y;; f 2;;").declarations.flatMap Node.wanted = ["x", "f"] := by
    decide +kernel
  have h : ∀ d ∈ (parse "let f y = x + y;; f 2;;").declarations, ∀ x ∈ d.wanted,
      Bindings.get? [("x", some Ty.int)] x = Bindings.get? [("z", some .string), ("x", some .int)] x ∧
        SimilarAt [("x", .int 1)] [("z", .string "a"), ("x", .int 1)] x := by
    intro d hd x hx
    have hmem : x ∈ ["x", "f"] := hwanted ▸ List.mem_flatMap.mpr ⟨d, hd, hx⟩
    simp only [List.mem_cons, List.not_mem_nil, or_false] at hmem
    rcases hmem with rfl | rfl <;> exact ⟨rfl, .of_eq rfl⟩
  exact ⟨h, run_unrelated _ _ _ _ _ _ h⟩

/-- A name whose declaration fails keeps what it was bound to, so that runs may differ in it afterwards. -/
theorem not_run_declared_alike :
    ¬ ∀ (source : String) (types types' : Frame) (values values' : Env) (limit : Int),
      (∀ d ∈ (parse source).declarations, ∀ x ∈ d.wanted,
        types.get? x = types'.get? x ∧ SimilarAt values values' x) →
      ∀ r r', run source types values limit = .ok r → run source types' values' limit = .ok r' →
        ∀ d ∈ (parse source).declarations, ∀ x, d.declared? = some x → SimilarAt r.env r'.env x := by
  intro h
  have hwanted : (parse "let y = 1 / 0;;").declarations.flatMap Node.wanted = [] := by decide +kernel
  have hdeclared : ∃ d ∈ (parse "let y = 1 / 0;;").declarations, d.declared? = some "y" := by decide +kernel
  have hbound : (run "let y = 1 / 0;;" [("y", some .int)] [("y", .int 5)] 1000).toOption.map
      (fun r => Bindings.has r.env "y") = some true := by decide +kernel
  have hunbound : (run "let y = 1 / 0;;" [] [] 1000).toOption.map
      (fun r => Bindings.has r.env "y") = some false := by decide +kernel
  obtain ⟨d, hd, hy⟩ := hdeclared
  obtain ⟨r, hr, hhas⟩ := Option.map_eq_some_iff.mp hbound
  obtain ⟨r', hr', hhas'⟩ := Option.map_eq_some_iff.mp hunbound
  have hsimilar : SimilarAt r.env r'.env "y" := by
    refine h _ _ _ _ _ 1000 (fun e he x hx => ?_) r r' (toOption_eq_some.mp hr) (toOption_eq_some.mp hr')
      d hd "y" hy
    have hmem : x ∈ ([] : List String) := hwanted ▸ List.mem_flatMap.mpr ⟨e, he, hx⟩
    cases hmem
  have hsame := hsimilar.has
  rw [hhas, hhas'] at hsame
  cases hsame

/-! ## Names that are declared again -/

/-- Wherever a declaration wants `x`, `P` holds of the declarations in front of it. -/
def WantedAfter (ds : List Node) (x : String) (P : List Node → Prop) : Prop :=
  ∀ i : Fin ds.length, x ∈ ds[i].wanted → P (ds.take i)

instance (ds : List Node) (x : String) (P : List Node → Prop) [DecidablePred P] :
    Decidable (WantedAfter ds x P) :=
  inferInstanceAs (Decidable (∀ i : Fin ds.length, x ∈ ds[i].wanted → P (ds.take i)))

theorem WantedAfter.front {ds before after : List Node} {d : Node} {x : String} {P : List Node → Prop}
    (h : WantedAfter ds x P) (hsplit : ds = before ++ d :: after) (hx : x ∈ d.wanted) : P before := by
  subst hsplit
  simpa using h ⟨before.length, by simp⟩ (by simpa using hx)

/-- A text that declares a name again does not depend on what the name was bound to. If a declaration of the
name that passes the analysis is in front of every declaration that wants the name, the analysis is the same
whatever type the name had; and if one that comes to a value is, so is the whole run. -/
theorem run_redeclared (source x : String) (hx : x ≠ "_") (types types' : Frame) (values values' : Env)
    (limit : Int) (hother : ∀ y, y ≠ x → types.get? y = types'.get? y ∧ values.get? y = values'.get? y)
    (hpassed : WantedAfter (parse source).declarations x (Passed types x)) :
    (∀ p, accepted? source = some p → analyze p.body types = analyze p.body types') ∧
    (∀ r r', run source types values limit = .ok r → run source types' values' limit = .ok r' →
      r.syntaxErrors = r'.syntaxErrors ∧ r.analysis = r'.analysis) ∧
    ((Evaluates source types →
        WantedAfter (parse source).declarations x (Revalued (evaluate limit) values x)) →
      SameRuns (· ≠ x) (run source types values limit) (run source types' values' limit)) := by
  have htypes : ∀ before d after, (parse source).declarations = before ++ d :: after → ∀ y ∈ d.wanted,
      types.get? y = types'.get? y ∨ (y ≠ "_" ∧ Passed types y before) := by
    intro before d after hsplit y hy
    by_cases hyx : y = x
    · subst hyx
      exact .inr ⟨hx, hpassed.front hsplit hy⟩
    · exact .inl (hother y hyx).1
  refine ⟨fun p hp => accepted_analyze_alike hp htypes, fun r r' hr hr' => ?_, fun hrevalued => ?_⟩
  · cases hp : accepted? source with
    | none =>
      cases (run_not_accepted hp types values limit).symm.trans hr
      cases (run_not_accepted hp types' values' limit).symm.trans hr'
      exact ⟨rfl, rfl⟩
    | some p =>
      obtain ⟨herrors, a, ha, hanalysis⟩ := run_reports hp hr
      obtain ⟨herrors', a', ha', hanalysis'⟩ := run_reports hp hr'
      rw [accepted_analyze_alike hp htypes] at ha
      obtain rfl := Except.ok.inj (ha.symm.trans ha')
      exact ⟨herrors.trans herrors'.symm, hanalysis.trans hanalysis'.symm⟩
  · refine runs_alike (fun y hy => .of_eq (hother y hy).2) htypes fun heval before d after hsplit y hy => ?_
    by_cases hyx : y = x
    · subst hyx
      exact .inr ((hrevalued heval).front hsplit hy)
    · exact .inl hyx

/-- What a name was bound to is hidden by a declaration of it. -/
theorem run_redeclared_string :
    "x" ≠ "_" ∧
    (∀ y, y ≠ "x" → Bindings.get? [("x", some Ty.string)] y = Bindings.get? [] y ∧
      Bindings.get? [("x", Value.string "a")] y = Bindings.get? [] y) ∧
    WantedAfter (parse "let x = 1;; x + 1;;").declarations "x" (Passed [("x", some .string)] "x") ∧
    WantedAfter (parse "let x = 1;; x + 1;;").declarations "x"
      (Revalued (evaluate 1000) [("x", .string "a")] "x") ∧
    SameRuns (· ≠ "x") (run "let x = 1;; x + 1;;" [("x", some .string)] [("x", .string "a")] 1000)
      (run "let x = 1;; x + 1;;" [] [] 1000) := by
  have hother : ∀ y, y ≠ "x" → Bindings.get? [("x", some Ty.string)] y = Bindings.get? [] y ∧
      Bindings.get? [("x", Value.string "a")] y = Bindings.get? [] y := fun y hy =>
    ⟨if_neg (Ne.symm hy), if_neg (Ne.symm hy)⟩
  have hpassed : WantedAfter (parse "let x = 1;; x + 1;;").declarations "x"
      (Passed [("x", some .string)] "x") := by decide +kernel
  have hrevalued : WantedAfter (parse "let x = 1;; x + 1;;").declarations "x"
      (Revalued (evaluate 1000) [("x", .string "a")] "x") := by decide +kernel
  exact ⟨by decide, hother, hpassed, hrevalued,
    (run_redeclared _ "x" (by decide) _ _ _ _ 1000 hother hpassed).2.2 fun _ => hrevalued⟩

/-- A declaration of `x` in front of every declaration that wants `x` hides what `x` was bound to, whether or not
that declaration passed the analysis and came to a value. -/
def HidesSeed (source x : String) (types types' : Frame) (values values' : Env) (limit : Int) : Prop :=
  (∀ y, types.has y = values.has y) → (∀ y, types'.has y = values'.has y) →
  (∀ y, y ≠ x → types.get? y = types'.get? y ∧ values.get? y = values'.get? y) →
  WantedAfter (parse source).declarations x (fun before => ∃ d ∈ before, d.declared? = some x) →
  ∀ r r', run source types values limit = .ok r → run source types' values' limit = .ok r' →
    r.analysis = r'.analysis ∧ r.outcomes.map Outcome.shown = r'.outcomes.map Outcome.shown

/-- How many declarations of a run the analysis refused, and which of them came to a value. -/
def Run.tally (r : Run) : Option Nat × List Bool :=
  (r.analysis.map (·.errors.length), (r.outcomes.map Outcome.shown).map Except.isOk)

theorem not_hidesSeed {source x : String} {t : Typing} {v : Value} {limit : Int} {m n : Option Nat × List Bool}
    (hafter : WantedAfter (parse source).declarations x (fun before => ∃ d ∈ before, d.declared? = some x))
    (hm : (run source [(x, t)] [(x, v)] limit).toOption.map Run.tally = some m)
    (hn : (run source [] [] limit).toOption.map Run.tally = some n) (hne : m ≠ n) :
    ¬ HidesSeed source x [(x, t)] [] [(x, v)] [] limit := by
  intro h
  have hhas : ∀ y, Bindings.has [(x, t)] y = Bindings.has [(x, v)] y := by
    intro y
    by_cases hy : x = y <;> simp [Bindings.has, Bindings.get?, hy]
  have hother : ∀ y, y ≠ x → Bindings.get? [(x, t)] y = Bindings.get? [] y ∧
      Bindings.get? [(x, v)] y = Bindings.get? [] y := fun y hy => ⟨if_neg (Ne.symm hy), if_neg (Ne.symm hy)⟩
  obtain ⟨r, hr, rfl⟩ := Option.map_eq_some_iff.mp hm
  obtain ⟨r', hr', rfl⟩ := Option.map_eq_some_iff.mp hn
  obtain ⟨hanalysis, houtcomes⟩ :=
    h hhas (fun _ => rfl) hother hafter r r' (toOption_eq_some.mp hr) (toOption_eq_some.mp hr')
  exact hne (by rw [Run.tally, Run.tally, hanalysis, houtcomes])

/-- A declaration that fails hides nothing, be it refused or without a value, and neither does one of `_`. -/
theorem not_hidesSeed_failing :
    ¬ HidesSeed "let x = 1 / 0;; x;;" "x" [("x", some .int)] [] [("x", .int 5)] [] 1000 ∧
    ¬ HidesSeed "let x = 1 + \"a\";; x;;" "x" [("x", some .int)] [] [("x", .int 5)] [] 1000 ∧
    ¬ HidesSeed "let _ = 1;; _;;" "_" [("_", some .int)] [] [("_", .int 5)] [] 1000 := by
  refine ⟨not_hidesSeed (m := (some 0, [false, true])) (n := (some 0, [false, false])) ?_ ?_ ?_ ?_,
    not_hidesSeed (m := (some 1, [])) (n := (some 2, [])) ?_ ?_ ?_ ?_,
    not_hidesSeed (m := (some 0, [true, true])) (n := (some 1, [])) ?_ ?_ ?_ ?_⟩ <;> decide +kernel

end Camlet
