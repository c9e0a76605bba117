import Camlet.Proofs.Kinds
import Camlet.Proofs.Piecewise

/-
  What a text changes in an interactive session. The types and the values that a session keeps are for the
  same names. A text that fails before it is evaluated, or that is given up, leaves both as they were; any
  other gives a type and a value to each name of a declaration that had one, and leaves the other names
  alone. That the type and the value which are kept come from the same declaration rests on the analysis: it
  refuses a name that is declared twice, unless it is `_`.
-/

namespace Camlet

/-! ## Names that are bound by declarations -/

/-- A declaration among `ds` declares `x`; in the lists of types and of outcomes it has the type `t` and the
value `v`. -/
def Binds (ds : List Node) (bs : List (String × Typing)) (os : List Outcome) (x : String) (t : Typing)
    (v : Value) : Prop :=
  ∃ d, d.declared? = some x ∧ (d, (x, t), Except.ok ⟨x, v⟩) ∈ ds.zip (bs.zip os)

section

variable {ds : List Node} {bs : List (String × Typing)} {os : List Outcome} {x : String} {t : Typing}
  {v : Value}

theorem binds_cons {d : Node} {b : String × Typing} {o : Outcome} :
    Binds (d :: ds) (b :: bs) (o :: os) x t v ↔
      (d.declared? = some x ∧ b = (x, t) ∧ o = .ok ⟨x, v⟩) ∨ Binds ds bs os x t v := by
  simp only [Binds, List.zip_cons_cons, List.mem_cons, Prod.mk.injEq]
  constructor
  · rintro ⟨e, he, ⟨rfl, rfl, rfl⟩ | h⟩
    · exact .inl ⟨he, rfl, rfl⟩
    · exact .inr ⟨e, he, h⟩
  · rintro (⟨hd, rfl, rfl⟩ | ⟨e, he, h⟩)
    · exact ⟨d, hd, .inl ⟨rfl, rfl, rfl⟩⟩
    · exact ⟨e, he, .inr h⟩

theorem Binds.declared (h : Binds ds bs os x t v) : ∃ d ∈ ds, d.declared? = some x := by
  obtain ⟨d, hd, hmem⟩ := h
  exact ⟨d, (List.of_mem_zip hmem).1, hd⟩

end

/-! ## One declaration -/

section

variable {limit : Int} {frames depth : Nat} {c c' : Context} {env env' : Env} {d : Node} {x : String}
  {t : Typing} {res : Except Failure Value} {o : Outcome}

/-- A declaration that has a value binds it, and one that fails changes nothing. -/
theorem evaluated_get? (hd : IsDeclaration d) (heval : evaluated limit frames d env = (res, env'))
    (ho : Outcome.ofRun d res = .ok o) (x : String) :
    env'.get? x = if d.declared? = some x then (o.result?.map Result.value).or (env.get? x)
      else env.get? x := by
  obtain ⟨v, rfl, rfl, -⟩ | ⟨f, rfl, rfl, -⟩ :=
    evaluated_declaration hd lenient_true (@declaration_fits .nothing env d limit hd backed_nothing) heval
  · rw [Node.get?_bound]
    obtain ⟨y, hy⟩ : ∃ y, o = .ok ⟨y, v⟩ := by
      cases hd <;> cases ho <;> exact ⟨_, rfl⟩
    rw [hy]
    rfl
  · obtain ⟨g, rfl⟩ := ofRun_error ho
    simp [Outcome.result?]

/-- What a declaration with a value is reported under is the name that it declares, and so is its type. -/
theorem named_head {y : String} {r : Result} (hname : d.name? = some y)
    (ho : Outcome.ofRun d res = .ok (.ok r)) (hdx : d.declared? = some x) :
    (y, t) = (x, t) ∧ (.ok r : Outcome) = .ok ⟨x, r.value⟩ := by
  have hx : d.name? = some x := by
    cases d <;> first | exact hdx | cases hdx
  obtain rfl : y = x := Option.some_inj.mp (hname.symm.trans hx)
  obtain rfl : r.name = y := Option.some_inj.mp ((ofRun_ok ho).2.symm.trans hx)
  exact ⟨rfl, rfl⟩

/-- A declaration that passes the analysis declares its name in the innermost frame, in which it was not
declared before, unless it is `_`. -/
theorem infer_frame (hd : IsDeclaration d) (h : infer depth d c = .ok t c') (hx : x ≠ "_") :
    ((c'.scopes.headD []).has x = true ↔ d.declared? = some x ∨ (c.scopes.headD []).has x = true) ∧
      (d.declared? = some x → (c.scopes.headD []).has x = false) := by
  have hdeclare : ∀ y, c.scopes.declare y t = .ok c'.scopes →
      ((c'.scopes.headD []).has x = true ↔ some y = some x ∨ (c.scopes.headD []).has x = true) ∧
        (some y = some x → (c.scopes.headD []).has x = false) := by
    intro y hy
    rcases Scopes.declare_eq_ok.mp hy with ⟨rfl, heq⟩ | ⟨-, hopen, heq⟩
    · have hne : some "_" ≠ some x := fun h => hx (Option.some_inj.mp h).symm
      rw [heq]
      exact ⟨(or_iff_right hne).symm, fun h => absurd h hne⟩
    · rw [heq, Scopes.headD_assign, Bindings.has, Bindings.get?_set]
      by_cases hyx : y = x
      · subst hyx
        exact ⟨by simp, fun _ => hopen⟩
      · have hne : some y ≠ some x := fun h => hyx (Option.some_inj.mp h)
        rw [if_neg hyx]
        exact ⟨(or_iff_right hne).symm, fun h => absurd h hne⟩
  cases hd with
  | letDecl pos y hv => exact hdeclare y (infer_letDecl hv h).2
  | funDecl pos f p ps r hb =>
    obtain ⟨inner, tb, -, -, -, hf⟩ := infer_funDecl hb h
    exact hdeclare f hf
  | @exprStmt pos e he =>
    have hne : (Node.exprStmt pos e).declared? ≠ some x := (Option.some_ne_none x).symm
    rw [(infer_exprStmt he h).2]
    exact ⟨(or_iff_right hne).symm, fun h => absurd h hne⟩

end

/-! ## Declarations one after the other -/

section

variable {limit : Int} {frames : Nat} {c : Context} {env env' : Env} {ds : List Node}
  {bs : List (String × Typing)} {os : List Outcome} {x : String} {t : Typing} {v : Value}

theorem Lockstep.lengths (h : Lockstep limit frames c env ds bs os env') :
    bs.length = ds.length ∧ os.length = ds.length := by
  induction h with
  | nil => exact ⟨rfl, rfl⟩
  | cons _ _ _ _ _ ih => exact ⟨congrArg (· + 1) ih.1, congrArg (· + 1) ih.2⟩

/-- What is in the innermost frame is not declared again. -/
theorem Lockstep.not_declared (h : Lockstep limit frames c env ds bs os env')
    (hds : ∀ d ∈ ds, IsDeclaration d) (hx : x ≠ "_") (hhas : (c.scopes.headD []).has x = true) :
    ∀ d ∈ ds, d.declared? ≠ some x := by
  induction h with
  | nil => exact List.forall_mem_nil _
  | cons hinfer _ _ _ _ ih =>
    obtain ⟨hd, hds⟩ := List.forall_mem_cons.mp hds
    obtain ⟨hframe, hnew⟩ := infer_frame hd hinfer hx
    refine List.forall_mem_cons.mpr ⟨fun hdx => ?_, ih hds (hframe.mpr (.inr hhas))⟩
    rw [hnew hdx] at hhas
    cases hhas

/-- A name that nothing declares has no type. -/
theorem Lockstep.untyped (h : Lockstep limit frames c env ds bs os env') (hds : ∀ d ∈ ds, IsDeclaration d)
    (hdash : x ≠ "-") (hnot : ∀ d ∈ ds, d.declared? ≠ some x) : Bindings.get? bs.reverse x = none := by
  induction h with
  | nil => rfl
  | cons _ hname _ _ _ ih =>
    obtain ⟨hd, hds⟩ := List.forall_mem_cons.mp hds
    obtain ⟨hne, hnot⟩ := List.forall_mem_cons.mp hnot
    rw [Bindings.get?_reverse_cons, ih hds hnot, if_neg fun heq => hne ((hd.declared?_iff hname hdash).mpr heq)]
    rfl

/-- A name that no declaration gives a value keeps the one that it has. -/
theorem Lockstep.get?_unbound (h : Lockstep limit frames c env ds bs os env')
    (hds : ∀ d ∈ ds, IsDeclaration d) (hnot : ∀ t v, ¬ Binds ds bs os x t v) :
    env'.get? x = env.get? x := by
  induction h with
  | nil => rfl
  | @cons c c₁ env env₁ env' d ds y t bs res o os _ hname heval ho _ ih =>
    obtain ⟨hd, hds⟩ := List.forall_mem_cons.mp hds
    rw [ih hds fun t v hrest => hnot t v (binds_cons.mpr (.inr hrest)), evaluated_get? hd heval ho]
    split
    next hdx =>
      cases o with
      | error f => rfl
      | ok r =>
        -- The head would bind the name, to its own type and value.
        obtain ⟨hb, ho'⟩ := named_head hname ho hdx
        exact absurd (binds_cons.mpr (.inl ⟨hdx, hb, ho'⟩)) (hnot t r.value)
    next => rfl

/-- A name that is in the environment stays there. -/
theorem Lockstep.has_mono (h : Lockstep limit frames c env ds bs os env') (hds : ∀ d ∈ ds, IsDeclaration d)
    (hx : env.has x = true) : env'.has x = true := by
  induction h with
  | nil => exact hx
  | cons _ _ heval ho _ ih =>
    obtain ⟨hd, hds⟩ := List.forall_mem_cons.mp hds
    refine ih hds ?_
    rw [Bindings.has, evaluated_get? hd heval ho]
    split
    · rw [Option.isSome_or]
      exact (Bool.or_eq_true _ _).mpr (.inr hx)
    · exact hx

theorem Lockstep.has_bound (h : Lockstep limit frames c env ds bs os env') (hds : ∀ d ∈ ds, IsDeclaration d)
    (hbinds : Binds ds bs os x t v) : env'.has x = true := by
  induction h with
  | nil => exact absurd hbinds.declared (by simp)
  | cons _ _ heval ho hrest ih =>
    obtain ⟨hd, hds⟩ := List.forall_mem_cons.mp hds
    rcases binds_cons.mp hbinds with ⟨hdx, -, rfl⟩ | hbinds
    · refine hrest.has_mono hds ?_
      rw [Bindings.has, evaluated_get? hd heval ho, if_pos hdx]
      rfl
    · exact ih hds hbinds

/-- The name of a declaration with a value has the type that was found for it and that value, at the end as
well: it is not declared again. -/
theorem Lockstep.binds (h : Lockstep limit frames c env ds bs os env') (hds : ∀ d ∈ ds, IsDeclaration d)
    (hx : x ≠ "_") (hdash : x ≠ "-") (hbinds : Binds ds bs os x t v) :
    Bindings.get? bs.reverse x = some t ∧ env'.get? x = some v := by
  induction h with
  | nil => exact absurd hbinds.declared (by simp)
  | cons hinfer _ heval ho hrest ih =>
    obtain ⟨hd, hds⟩ := List.forall_mem_cons.mp hds
    rw [Bindings.get?_reverse_cons]
    rcases binds_cons.mp hbinds with ⟨hdx, heq, rfl⟩ | hbinds
    · cases heq
      have hnot := hrest.not_declared hds hx ((infer_frame hd hinfer hx).1.mpr (.inl hdx))
      have hkept := hrest.get?_unbound hds fun t v hagain => by
        obtain ⟨e, he, hex⟩ := hagain.declared
        exact hnot e he hex
      rw [hrest.untyped hds hdash hnot, hkept, evaluated_get? hd heval ho, if_pos hdx, if_pos rfl]
      exact ⟨rfl, rfl⟩
    · obtain ⟨htype, hvalue⟩ := ih hds hbinds
      rw [htype, hvalue]
      exact ⟨rfl, rfl⟩

/-- A value that is reported under the name of a declaration is bound to it. -/
theorem Lockstep.binds_of_ok (h : Lockstep limit frames c env ds bs os env')
    (hds : ∀ d ∈ ds, IsDeclaration d) {r : Result} (hr : .ok r ∈ os) (hdash : r.name ≠ "-") :
    ∃ t, Binds ds bs os r.name t r.value := by
  induction h with
  | nil => cases hr
  | cons _ hname _ ho _ ih =>
    obtain ⟨hd, hds⟩ := List.forall_mem_cons.mp hds
    rcases List.mem_cons.mp hr with rfl | hr
    · have hdx := (hd.declared?_iff (ofRun_ok ho).2 hdash).mpr rfl
      obtain ⟨hb, -⟩ := named_head hname ho hdx
      exact ⟨_, binds_cons.mpr (.inl ⟨hdx, hb, rfl⟩)⟩
    · obtain ⟨t, ht⟩ := ih hds hr
      exact ⟨t, binds_cons.mpr (.inr ht)⟩

end

/-! ## Turns -/

/-- A declaration of the program declares `x`, the analysis found the type `t` for it, and it came to the value
`v`. -/
def Run.Binds (r : Run) (x : String) (t : Typing) (v : Value) : Prop :=
  ∃ p a, r.program = some p ∧ r.analysis = some a ∧ Camlet.Binds p.body a.bindings r.outcomes x t v

namespace Session

/-- A session keeps types and values for the same names, and none for `-`, under which results of expressions
are reported. -/
structure Even (s : Session) : Prop where
  same : ∀ x, s.types.has x = s.values.has x
  dash : s.values.has "-" = false

/-- What `s'` has of types and values is what `s` has and what the run adds: a type and a value for each name
that it binds, those of the one declaration that does, unless it is `_`. -/
structure Updated (s : Session) (r : Run) (s' : Session) : Prop where
  bound : ∀ x t v, r.Binds x t v → s'.types.has x = true ∧ s'.values.has x = true
  given : ∀ x t v, r.Binds x t v → x ≠ "_" → s'.types.get? x = some t ∧ s'.values.get? x = some v
  kept : ∀ x, (∀ t v, ¬ r.Binds x t v) →
    s'.types.get? x = s.types.get? x ∧ s'.values.get? x = s.values.get? x

section

variable {s s' : Session} {r : Run} {source : String}

/-- The names of a session that is updated stay even. -/
theorem Updated.even (h : s.Updated r s') (hs : s.Even) (hdash : ∀ t v, ¬ r.Binds "-" t v) : s'.Even := by
  constructor
  · intro x
    by_cases hx : ∃ t v, r.Binds x t v
    · obtain ⟨t, v, hbinds⟩ := hx
      obtain ⟨htypes, hvalues⟩ := h.bound x t v hbinds
      rw [htypes, hvalues]
    · obtain ⟨htypes, hvalues⟩ := h.kept x fun t v hbinds => hx ⟨t, v, hbinds⟩
      rw [Bindings.has, Bindings.has, htypes, hvalues]
      exact hs.same x
  · rw [Bindings.has, (h.kept "-" hdash).2]
    exact hs.dash

/-- A run that comes to outcomes has read its program and analyzed it without a fault. -/
theorem run_evaluated {types : Frame} {values : Env} {limit : Int}
    (h : run source types values limit = .ok r) (hos : r.outcomes ≠ []) :
    accepted? source = r.program ∧ r.syntaxErrors = [] ∧ r.typeErrors = [] := by
  cases run_ends_in h with
  | unread | refused => exact absurd rfl hos
  | evaluated hp _ hok _ => exact ⟨hp, rfl, List.isEmpty_iff.mp hok⟩

/-- Where the analysis finds no fault, every declaration of the program has a type and an outcome. -/
theorem run_lengths {types : Frame} {values : Env} {limit : Int} {p : Program} {a : Analysis}
    (h : run source types values limit = .ok r) (hp : r.program = some p) (ha : r.analysis = some a)
    (herrors : a.errors = []) :
    a.bindings.length = p.body.length ∧ r.outcomes.length = p.body.length := by
  cases run_ends_in h with
  | unread => cases ha
  | refused _ _ hok =>
    obtain rfl := Option.some_inj.mp ha
    simp [Analysis.ok, herrors] at hok
  | evaluated _ hanalysis hok hos =>
    obtain rfl := Option.some_inj.mp ha
    obtain rfl := Option.some_inj.mp hp
    obtain ⟨ws, hdecls⟩ := analyze_eq_ok hanalysis hok
    rw [evaluate_starts hos] at hos
    exact (lockstep_of_run hdecls hos).lengths

theorem Binds.outcomes {x : String} {t : Typing} {v : Value} (h : r.Binds x t v) : r.outcomes ≠ [] := by
  obtain ⟨p, a, -, -, d, -, hmem⟩ := h
  exact List.ne_nil_of_mem (List.of_mem_zip (List.of_mem_zip hmem).2).2

/-- No run binds `-`. -/
theorem not_binds_dash {types : Frame} {values : Env} {limit : Int}
    (h : run source types values limit = .ok r) (t : Typing) (v : Value) : ¬ r.Binds "-" t v := by
  intro hb
  obtain ⟨haccepted, -, -⟩ := run_evaluated h (Binds.outcomes hb)
  obtain ⟨p, a, hp, -, hbinds⟩ := hb
  obtain ⟨herrors, hbody⟩ := accepted?_errors (haccepted.trans hp)
  obtain ⟨d, hd, hdash⟩ := hbinds.declared
  exact parse_declared_ne_dash herrors d (hbody ▸ hd) hdash

/-- What an interactive session keeps of a run. -/
theorem updated_absorb (hi : s.interactive = true) (hdash : s.values.has "-" = false)
    (h : run source s.types s.values s.options.limit = .ok r) : s.Updated r (s.absorb r) := by
  obtain ⟨hos, -⟩ | ⟨p, a, hp, ha, hds, hrun⟩ := run_lockstep h
  · -- Nothing was evaluated, so nothing is bound and nothing is kept.
    have hnot : ∀ x t v, ¬ r.Binds x t v := fun x t v hb => Binds.outcomes hb hos
    have hnone : ∀ x, Session.evaluated r x = false := by
      intro x
      rw [← Bool.not_eq_true, evaluated_iff, hos]
      rintro ⟨v, hv, -⟩
      cases hv
    exact ⟨fun x t v hb => absurd hb (hnot x t v), fun x t v hb => absurd hb (hnot x t v),
      fun x _ => absorb_unevaluated (hnone x)⟩
  · have hbinds : ∀ {x t v}, r.Binds x t v ↔ Camlet.Binds p.body a.bindings r.outcomes x t v := by
      intro x t v
      constructor
      · rintro ⟨q, b, hq, hb, h⟩
        obtain rfl := Option.some_inj.mp (hp.symm.trans hq)
        obtain rfl := Option.some_inj.mp (ha.symm.trans hb)
        exact h
      · exact fun h => ⟨p, a, hp, ha, h⟩
    have hevaluated : ∀ {x t v}, r.Binds x t v → Session.evaluated r x = true := by
      rintro x t v hb
      obtain ⟨d, -, hmem⟩ := hbinds.mp hb
      exact evaluated_iff.mpr ⟨⟨x, v⟩, (List.of_mem_zip (List.of_mem_zip hmem).2).2, rfl⟩
    have hname : ∀ {x t v}, r.Binds x t v → x ≠ "-" := by
      rintro x t v hb rfl
      exact not_binds_dash h t v hb
    refine ⟨fun x t v hb => ?_, fun x t v hb hx => ?_, fun x hnot => ?_⟩
    · have hhas := hrun.has_bound hds (hbinds.mp hb)
      obtain ⟨w, hw, rfl⟩ := evaluated_iff.mp (hevaluated hb)
      obtain ⟨u, hu⟩ := hrun.typed hw
      rw [Bindings.has, Bindings.has, absorb_types hi ha, absorb_values hi ha, hevaluated hb, hhas, hu]
      refine ⟨rfl, ?_⟩
      rw [if_pos rfl, Option.isSome_or]
      exact (Bool.or_eq_true _ _).mpr (.inl hhas)
    · obtain ⟨htype, hvalue⟩ := hrun.binds hds hx (hname hb) (hbinds.mp hb)
      have hhas : Bindings.has r.env x = true := congrArg Option.isSome hvalue
      rw [absorb_types hi ha, absorb_values hi ha, hevaluated hb, hhas, htype, hvalue]
      exact ⟨rfl, rfl⟩
    · cases heval : Session.evaluated r x with
      | false => exact absorb_unevaluated heval
      | true =>
        -- Only an expression can have had a value without binding the name, and its name is `-`.
        obtain ⟨w, hw, rfl⟩ := evaluated_iff.mp heval
        obtain hdash' : w.name = "-" := by
          by_contra hne
          obtain ⟨t, ht⟩ := hrun.binds_of_ok hds hw hne
          exact hnot t w.value (hbinds.mpr ht)
        have hnone : r.env.get? w.name = none := by
          rw [hrun.get?_unbound hds fun t v hb => hnot t v (hbinds.mpr hb), hdash']
          exact Option.not_isSome_iff_eq_none.mp (Bool.not_eq_true _ ▸ hdash)
        have hhas : Bindings.has r.env w.name = false := congrArg Option.isSome hnone
        rw [absorb_types hi ha, absorb_values hi ha, heval, hhas, hnone]
        exact ⟨rfl, rfl⟩

/-- What holds of a session and of each of its turns. -/
structure Running (s : Session) (options : Options) : Prop where
  interactive : s.interactive = true
  lenient : s.reporter.fatal = false
  options : s.options = options
  even : s.Even

variable {options : Options}

/-- A turn is given up and changes neither types nor values, or it changes both as its run says. -/
theorem Running.turn (hs : s.Running options) (source : String) :
    (s.turn source).session.Running options ∧
      (∀ e, (s.turn source).ending = .error e →
        (s.turn source).session.types = s.types ∧ (s.turn source).session.values = s.values) ∧
      ∀ r, (s.turn source).ending = .ok r →
        run source s.types s.values options.limit = .ok r ∧ s.Updated r (s.turn source).session := by
  obtain ⟨⟨e, he⟩, hsession⟩ | ⟨r, hrun, hsession, hending⟩ := turn_cases s source
  · rw [he, hsession]
    refine ⟨⟨hs.interactive, hs.lenient, hs.options, hs.even.same, hs.even.dash⟩, fun _ _ => ⟨rfl, rfl⟩,
      fun r hr => ?_⟩
    cases hr
  · obtain ⟨hi, hoptions, hreporter⟩ := absorb_unchanged (s.at source) r
    obtain ⟨hbound, hgiven, hkept⟩ := updated_absorb (s := s.at source) hs.interactive hs.even.dash hrun
    have hupdated : s.Updated r ((s.at source).absorb r) := ⟨hbound, hgiven, hkept⟩
    rw [hending hs.lenient, hsession]
    refine ⟨⟨hi.trans hs.interactive, (congrArg Reporter.fatal hreporter).trans hs.lenient,
      hoptions.trans hs.options, hupdated.even hs.even fun t v => not_binds_dash hrun t v⟩, ?_, ?_⟩
    · intro e he
      cases he
    · intro r' hr
      cases hr
      exact ⟨hs.options ▸ hrun, hupdated⟩

theorem Running.after (hs : s.Running options) (sources : List String) : (s.after sources).Running options := by
  induction sources generalizing s with
  | nil => exact hs
  | cons source sources ih => exact ih (hs.turn source).1

end

/-- What a text changes in an interactive session that was empty at first, of which errors are not fatal, after
any texts before it. A text that is given up changes neither types nor values; one with a fault of reading or
of the analysis changes no name; and any other changes exactly the names of declarations that came to a value:
each has the type that was found for the declaration and that value, but for `_`. In every case types and
values are kept for the same names. Where no fault is found, every declaration of the program has its type and
its outcome. -/
theorem turn_updates (reporter : Reporter) (path : String) (options : Options) (sources : List String)
    (source : String) :
    let s := (Session.fresh { reporter with fatal := false } path true options).after sources
    let t := s.turn source
    (∀ x, t.session.types.has x = t.session.values.has x) ∧
    (∀ e, t.ending = .error e → t.session.types = s.types ∧ t.session.values = s.values) ∧
    ∀ r, t.ending = .ok r →
      run source s.types s.values options.limit = .ok r ∧ s.Updated r t.session ∧
      (r.syntaxErrors ≠ [] ∨ r.typeErrors ≠ [] → ∀ x,
        t.session.types.get? x = s.types.get? x ∧ t.session.values.get? x = s.values.get? x) ∧
      ∀ p a, r.program = some p → r.analysis = some a → a.errors = [] →
        a.bindings.length = p.body.length ∧ r.outcomes.length = p.body.length := by
  intro s t
  have hfresh : (Session.fresh { reporter with fatal := false } path true options).Running options :=
    ⟨rfl, rfl, rfl, fun _ => rfl, rfl⟩
  obtain ⟨hrunning, hgiven, hok⟩ := (hfresh.after sources).turn source
  refine ⟨hrunning.even.same, hgiven, fun r hr => ?_⟩
  obtain ⟨hrun, hupdated⟩ := hok r hr
  refine ⟨hrun, hupdated, fun hfaults x => hupdated.kept x fun ty v hb => ?_, fun p a => run_lengths hrun⟩
  obtain ⟨-, hreading, htype⟩ := run_evaluated hrun (Binds.outcomes hb)
  exact hfaults.elim (absurd hreading) (absurd htype)

end Session

end Camlet
