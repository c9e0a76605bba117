import Camlet.Proofs.Calls
import Camlet.Proofs.Refusals
import Camlet.Proofs.Separation
import Camlet.Proofs.Spans

/-
  What a run can fail of. For every source text, a run either reports what is wrong with it, or it crashes
  at a remainder without a value: there is no other way for a run to fail, whatever the text is and
  whatever earlier runs have bound. The stages hand on what makes this hold: tokens that are read are
  those that the lexer makes, trees that are analyzed and evaluated are those that the parser makes,
  scopes give every name a type, and values are made of such trees.
-/

namespace Camlet

open Stateful

/-! ## Literals -/

/-- Every literal of a source text that spells a floating-point number is read. -/
theorem parse_crash? (source : String) : (parse source).crash? = none := by
  have hparse := (Prod.mk.inj (parse_eq_read source)).2
  rw [Parsed.crash?, List.findSome?_eq_none_iff, hparse]
  intro f hf
  obtain ⟨u, us, e, left, hus, -, hblame, rfl⟩ := Parsed.read_faults _ f hf
  cases hblame with
  | unfit t ts ex => cases h : t.kind <;> simp [Parsed.locate, h]
  | atEnd | tooDeep => rfl
  | fault _ ht ha =>
    cases ha with
    | unreadable hkind hread =>
      have hmem := List.mem_of_mem_filter (hus.subset ht)
      obtain ⟨whole, fraction, exponent, hnumber, hlexeme⟩ := (Lexer.body_lexed _ _ _ hmem).isNumber hkind
      rw [hlexeme, hnumber.readFloat?] at hread
      cases hread
    | _ => rfl

/-! ## Evaluation -/

theorem except_bind_pure_eq_error {ε α β : Type} {x : Except ε α} {f : α → β} {e : ε} :
    (x >>= fun a => pure (f a)) = .error e ↔ x = .error e := by
  cases x with
  | ok a => exact ⟨fun h => (by cases h), fun h => (by cases h)⟩
  | error e' => exact ⟨fun h => by cases h; rfl, fun h => by cases h; rfl⟩

/-- The evaluation of declarations, one after the other, reaches a remainder of numbers that satisfy `Q`. -/
def ReachesRemainder (frames : Nat) (limit : Int) (Q : Num → Num → Prop) (ds : List Node) (env : Env) :
    Prop :=
  ∃ before d after os env', ds = before ++ d :: after ∧
    evaluateWithin frames limit before env = .ok (os, env') ∧
    ∃ q, Point.Reaches limit ⟨frames, 0, env', d⟩ q ∧ Point.IsRemainder limit Q q

section

variable {limit : Int} {frames : Nat} {env : Env} {d : Node} {ds : List Node}

theorem evaluated_eq_error {f : Failure} :
    (evaluated limit frames d env).1 = .error f ↔ Point.Fails limit ⟨frames, 0, env, d⟩ f := by
  unfold evaluated Point.Fails
  cases eval limit frames 0 d env <;> simp

theorem ofRun_reported {f : Failure} (hd : IsDeclaration d) (hf : f.Reported) :
    ∃ g, Outcome.ofRun d (.error f) = .ok (.error g) ∧ g.val.Expected := by
  obtain ⟨name, hname⟩ := hd.name?_isSome
  cases f with
  | fault g => exact ⟨g, rfl, hf⟩
  | crash => cases hf
  | outOfFrames =>
    exact ⟨⟨d.pos, .stackOverflow name⟩, by simp [Outcome.ofRun, Outcome.ofRun.named, hname], trivial⟩
  | tooLarge =>
    exact ⟨⟨d.pos, .tooLarge name⟩, by simp [Outcome.ofRun, Outcome.ofRun.named, hname], trivial⟩

/-- What a declaration comes to: a value, or a fault that is reported, or a crash. -/
theorem declaration_cases (limit : Int) (frames : Nat) (hd : IsDeclaration d) (henv : EnvMade env) :
    EnvMade (evaluated limit frames d env).2 ∧
      ((∃ o, Outcome.ofRun d (evaluated limit frames d env).1 = .ok o ∧ ∀ f, o = .error f → f.val.Expected) ∨
        (evaluated limit frames d env).1 = .error (.crash .noRemainder)) := by
  have hkeeps := declaration_keeps limit hd henv fun _ _ => .inr trivial
  cases hrun : evaluated limit frames d env with
  | mk res env' =>
    obtain ⟨v, rfl, rfl, hv⟩ | ⟨f, rfl, rfl, -⟩ := evaluated_declaration hd (lenient_excused _) hkeeps hrun
    · obtain ⟨name, hname⟩ := hd.name?_isSome
      refine ⟨henv.bound hv, .inl ⟨.ok ⟨name, v⟩, ?_, fun f hf => by cases hf⟩⟩
      simp [Outcome.ofRun, Outcome.ofRun.named, hname]
    · have hproper : Point.Proper ⟨frames, 0, env', d⟩ := ⟨.inr hd, henv⟩
      refine ⟨henv, ?_⟩
      rcases hproper.fails_cases (evaluated_eq_error.mp (congrArg Prod.fst hrun)) with hf | ⟨rfl, -⟩
      · obtain ⟨g, hg, hexpected⟩ := ofRun_reported hd hf
        refine .inl ⟨.error g, hg, fun f hf => ?_⟩
        cases hf
        exact hexpected
      · exact .inr rfl

/-- Declarations are evaluated to the end, with faults that are reported, or one of them crashes. -/
theorem evaluateWithin_cases (hds : ∀ d ∈ ds, IsDeclaration d) (henv : EnvMade env) :
    (∃ os env', evaluateWithin frames limit ds env = .ok (os, env') ∧ EnvMade env' ∧
      ∀ f, .error f ∈ os → f.val.Expected) ∨
    evaluateWithin frames limit ds env = .error .noRemainder := by
  induction ds generalizing env with
  | nil => exact .inl ⟨[], env, rfl, henv, fun _ hf => absurd hf List.not_mem_nil⟩
  | cons d ds ih =>
    obtain ⟨hd, hds⟩ := List.forall_mem_cons.mp hds
    rw [evaluateWithin_eq]
    obtain ⟨henv', ⟨o, ho, hexpected⟩ | hcrash⟩ := declaration_cases limit frames hd henv
    · rw [ho]
      rcases ih hds henv' with ⟨os, env', hrun, hmade, hos⟩ | hrun
      · refine .inl ⟨o :: os, env', ?_, hmade, fun f hf => ?_⟩
        · simp only [bind, Except.bind, hrun]
          rfl
        · rcases List.mem_cons.mp hf with rfl | hf
          · exact hexpected f rfl
          · exact hos f hf
      · simp only [bind, Except.bind, hrun, or_true]
    · rw [hcrash]
      exact .inr rfl

/-- They crash exactly at a remainder without a value. -/
theorem evaluateWithin_crash (hds : ∀ d ∈ ds, IsDeclaration d) (henv : EnvMade env) :
    evaluateWithin frames limit ds env = .error .noRemainder ↔
      ReachesRemainder frames limit Num.LackRemainder ds env := by
  induction ds generalizing env with
  | nil =>
    constructor
    · intro h
      cases h
    · rintro ⟨before, d, after, os, env', h, -⟩
      simp at h
  | cons d ds ih =>
    obtain ⟨hd, hds⟩ := List.forall_mem_cons.mp hds
    have hproper : Point.Proper ⟨frames, 0, env, d⟩ := ⟨.inr hd, henv⟩
    have hcrash : (evaluated limit frames d env).1 = .error (.crash .noRemainder) ↔
        ∃ q, Point.Reaches limit ⟨frames, 0, env, d⟩ q ∧ Point.IsRemainder limit Num.LackRemainder q :=
      evaluated_eq_error.trans hproper.fails_noRemainder
    obtain ⟨henv', ⟨o, ho, -⟩ | hfirst⟩ := declaration_cases limit frames hd henv
    · -- The first declaration does not crash, so that one behind it must.
      have hstep : ∀ before, evaluateWithin frames limit (d :: before) env =
          evaluateWithin frames limit before (evaluated limit frames d env).2 >>= fun q =>
            pure (o :: q.1, q.2) := fun before => by
        rw [evaluateWithin_eq, ho]
        rfl
      rw [hstep, except_bind_pure_eq_error, ih hds henv']
      constructor
      · rintro ⟨before, e, after, os, env', rfl, hrun, hreach⟩
        exact ⟨d :: before, e, after, o :: os, env', rfl, by rw [hstep, hrun]; rfl, hreach⟩
      · rintro ⟨before, e, after, os, env', hsplit, hrun, hreach⟩
        cases before with
        | nil =>
          cases hsplit
          cases hrun
          rw [hcrash.mpr hreach] at ho
          cases ho
        | cons d' before =>
          cases hsplit
          obtain ⟨_, env₁, o', os', heval, -, -, hrest⟩ := evaluateWithin_cons hrun
          rw [heval]
          exact ⟨before, e, after, os', env', rfl, hrest, hreach⟩
    · refine iff_of_true ?_ ⟨[], d, ds, [], env, rfl, rfl, hcrash.mp hfirst⟩
      rw [evaluateWithin_eq, hfirst]
      rfl

end

/-! ## Runs -/

/-- A limit of nested applications under which evaluation starts. -/
theorem evaluate_eq {limit : Int} (hlimit : 0 < limit) (hframes : 1000 + 10 * limit < Int.pow 2 31)
    (body : List Node) (env : Env) :
    evaluate limit body env = evaluateWithin (frameBudget limit) limit body env := by
  have hpow : Int.pow 2 31 = 2147483648 := rfl
  rw [evaluate, if_neg (by omega), if_neg (by omega)]

/-- What holds of every run that does not crash: its faults are those of programs that were read, and it
gives types and values of which later runs may make use. -/
structure Run.Regular (r : Run) : Prop where
  typeErrors : ∀ f ∈ r.typeErrors, f.val.Expected
  runtimeErrors : ∀ f ∈ r.runtimeErrors, f.val.Expected
  types : ∀ a, r.analysis = some a → ∀ b ∈ a.bindings, b.2.isSome = true
  values : EnvMade r.env

/-- The program of a text, if no fault was found in reading it. -/
def accepted? (source : String) : Option Program :=
  if (parse source).errors.isEmpty then (parse source).program else none

/-- A program that was read without a fault is analyzed, and evaluated if no declaration is refused. -/
theorem run_of_accepted {source : String} {p : Program} (hp : accepted? source = some p) (types : Frame)
    (values : Env) (limit : Int) :
    run source types values limit = analyze p.body types >>= fun a =>
      if a.ok then evaluate limit p.body values >>= fun q => pure {
        tokens := tokenize source, program := p, analysis := a, outcomes := q.1, env := q.2 }
      else pure { tokens := tokenize source, program := p, analysis := a } := by
  unfold accepted? at hp
  split at hp
  next herrors =>
    have herrors : (parseTokens (tokenize source)).errors = [] := List.isEmpty_iff.mp herrors
    have hprogram : (parseTokens (tokenize source)).program = some p := hp
    simp only [run, herrors, hprogram]
  next => cases hp

theorem run_accepted {source : String} {p : Program} {a : Analysis} {types : Frame}
    (hp : accepted? source = some p) (ha : analyze p.body types = .ok a) (values : Env) (limit : Int) :
    run source types values limit =
      if a.ok then evaluate limit p.body values >>= fun q => pure {
        tokens := tokenize source, program := p, analysis := a, outcomes := q.1, env := q.2 }
      else pure { tokens := tokenize source, program := p, analysis := a } := by
  rw [run_of_accepted hp, ha]
  rfl

theorem run_not_accepted {source : String} (h : accepted? source = none) (types : Frame) (values : Env)
    (limit : Int) :
    run source types values limit = .ok {
      tokens := tokenize source
      program := (parse source).program
      syntaxErrors := (parse source).errors } := by
  unfold accepted? parse at h
  unfold parse
  cases herrors : (parseTokens (tokenize source)).errors with
  | nil =>
    rw [herrors] at h
    have hprogram : (parseTokens (tokenize source)).program = none := h
    simp only [run, herrors, hprogram]
    rfl
  | cons f fs =>
    simp only [run, herrors]
    rfl

/-- The ways in which a run comes to an end: after reading, after the analysis, or after the evaluation. -/
inductive Run.Ends (source : String) (types : Frame) (values : Env) (limit : Int) : Run → Prop
  | unread : accepted? source = none → Ends source types values limit {
      tokens := tokenize source
      program := (parse source).program
      syntaxErrors := (parse source).errors }
  | refused {p : Program} {a : Analysis} : accepted? source = some p → analyze p.body types = .ok a →
    a.ok = false → Ends source types values limit {
      tokens := tokenize source, program := p, analysis := a }
  | evaluated {p : Program} {a : Analysis} {os : List Outcome} {env : Env} :
    accepted? source = some p → analyze p.body types = .ok a → a.ok = true →
    evaluate limit p.body values = .ok (os, env) → Ends source types values limit {
      tokens := tokenize source, program := p, analysis := a, outcomes := os, env }

theorem run_ends_in {source : String} {types : Frame} {values : Env} {limit : Int} {r : Run}
    (h : run source types values limit = .ok r) : r.Ends source types values limit := by
  cases hp : accepted? source with
  | none =>
    obtain rfl := Except.ok.inj ((run_not_accepted hp types values limit).symm.trans h)
    exact .unread hp
  | some p =>
    rw [run_of_accepted hp] at h
    obtain ⟨a, ha, hrest⟩ := except_bind_eq_ok.mp h
    cases hok : a.ok with
    | false =>
      rw [hok] at hrest
      cases hrest
      exact .refused hp ha hok
    | true =>
      rw [hok, if_pos rfl] at hrest
      obtain ⟨⟨os, env⟩, hos, hr⟩ := except_bind_eq_ok.mp hrest
      cases hr
      exact .evaluated hp ha hok hos

section

variable {source : String} {p : Program} {types : Frame} {values : Env} {limit : Int}

theorem accepted?_isDeclaration (hp : accepted? source = some p) : ∀ d ∈ p.body, IsDeclaration d := by
  unfold accepted? at hp
  split at hp
  · exact parse_isDeclaration hp
  · cases hp

/-- A run comes to a regular result, or it crashes for lack of a remainder. -/
theorem run_regular (hlimit : 0 < limit) (hframes : 1000 + 10 * limit < Int.pow 2 31)
    (htypes : types.Typed) (hvalues : EnvMade values) :
    (∃ r, run source types values limit = .ok r ∧ r.Regular) ∨
      run source types values limit = .error .noRemainder := by
  have hnothing : EnvMade [] := fun x v hx => by cases hx
  cases hp : accepted? source with
  | none =>
    refine .inl ⟨_, run_not_accepted hp types values limit, ?_⟩
    exact ⟨List.forall_mem_nil _, List.forall_mem_nil _, fun a ha => (by cases ha), hnothing⟩
  | some p =>
    have hds := accepted?_isDeclaration hp
    obtain ⟨a, ha, htyped, hexpected⟩ := analyze_typed htypes hds
    have htypes' : ∀ a', some a = some a' → ∀ b ∈ a'.bindings, b.2.isSome = true :=
      fun a' ha' => Option.some_inj.mp ha' ▸ htyped
    rw [run_accepted hp ha]
    cases hok : a.ok with
    | false => exact .inl ⟨_, rfl, ⟨hexpected, List.forall_mem_nil _, htypes', hnothing⟩⟩
    | true =>
      rw [if_pos rfl, evaluate_eq hlimit hframes]
      rcases evaluateWithin_cases hds hvalues with ⟨os, env, hrun, henv, hos⟩ | hrun
      · rw [hrun]
        exact .inl ⟨_, rfl, ⟨hexpected, fun f hf => hos f (Run.mem_runtimeErrors.mp hf), htypes', henv⟩⟩
      · rw [hrun]
        exact .inr rfl

theorem run_crash (hlimit : 0 < limit) (hframes : 1000 + 10 * limit < Int.pow 2 31)
    (htypes : types.Typed) (hvalues : EnvMade values) :
    run source types values limit = .error .noRemainder ↔
      ∃ p a, accepted? source = some p ∧ analyze p.body types = .ok a ∧ a.ok = true ∧
        ReachesRemainder (frameBudget limit) limit Num.LackRemainder p.body values := by
  cases hp : accepted? source with
  | none =>
    rw [run_not_accepted hp]
    simp
  | some p =>
    have hds := accepted?_isDeclaration hp
    obtain ⟨a, ha, -, -⟩ := analyze_typed htypes hds
    rw [run_accepted hp ha]
    cases hok : a.ok with
    | false => simp [ha, hok, pure, Except.pure]
    | true =>
      rw [if_pos rfl, evaluate_eq hlimit hframes, except_bind_pure_eq_error, evaluateWithin_crash hds hvalues]
      simp [ha, hok]

/-- For every source text, under every positive limit that frames can be counted for, with seeds of types
and values such as runs give them: a run comes to a result with faults that programs can have which were
read, or it crashes for lack of a remainder. It crashes if and only if the program is accepted, no
declaration is refused, and the evaluation reaches a remainder of an infinity and a number other than zero
that floating point has. Also where faults were found in reading a text, its program is analyzed to the
end, and its evaluation ends in these two ways only. -/
theorem run_ends (hlimit : 0 < limit) (hframes : 1000 + 10 * limit < Int.pow 2 31) (htypes : types.Typed)
    (hvalues : EnvMade values) :
    ((∃ r, run source types values limit = .ok r ∧ r.Regular) ∨
      run source types values limit = .error .noRemainder) ∧
    (run source types values limit = .error .noRemainder ↔
      ∃ p a, accepted? source = some p ∧ analyze p.body types = .ok a ∧ a.ok = true ∧
        ReachesRemainder (frameBudget limit) limit Num.LackRemainder p.body values) ∧
    (parse source).crash? = none ∧
    ∀ p, (parse source).program = some p →
      (∃ a, analyze p.body types = .ok a ∧ ∀ f ∈ a.errors, f.val.Expected) ∧
      ((∃ os env, evaluate limit p.body values = .ok (os, env) ∧ ∀ f, .error f ∈ os → f.val.Expected) ∨
        evaluate limit p.body values = .error .noRemainder) := by
  refine ⟨run_regular hlimit hframes htypes hvalues, run_crash hlimit hframes htypes hvalues,
    parse_crash? source, fun p hp => ?_⟩
  have hds := parse_isDeclaration hp
  obtain ⟨a, ha, -, hexpected⟩ := analyze_typed htypes hds
  refine ⟨⟨a, ha, hexpected⟩, ?_⟩
  rw [evaluate_eq hlimit hframes]
  rcases evaluateWithin_cases hds hvalues with ⟨os, env, hrun, -, hos⟩ | hrun
  · exact .inl ⟨os, env, hrun, hos⟩
  · exact .inr hrun

end

/-- The crash that ends a run. -/
def crash? {α : Type} : Except Crash α → Option Crash
  | .ok _ => none
  | .error c => some c

theorem crash?_eq_some {α : Type} {x : Except Crash α} {c : Crash} : crash? x = some c ↔ x = .error c := by
  cases x <;> simp [crash?]

/-- The function `fun x -> 1e999 mod x` that a text gave. -/
def infiniteRemainder : Value :=
  .closure none "x" (.binary ⟨1, 17⟩ "mod" (.floatLit ⟨1, 11⟩ (Float.ofBits 0x7FF0000000000000))
    (.ident ⟨1, 21⟩ "x")) []

/-- A function that an earlier text gave crashes when it is applied. -/
theorem run_ends_closure :
    (0 : Int) < 1000 ∧ (1000 + 10 * 1000 : Int) < Int.pow 2 31 ∧ Frame.Typed [("f", some .anyFunction)] ∧
    EnvMade [("f", infiniteRemainder)] ∧
    ∃ p a, accepted? "f 2;;" = some p ∧ analyze p.body [("f", some .anyFunction)] = .ok a ∧ a.ok = true ∧
      ReachesRemainder (frameBudget 1000) 1000 Num.LackRemainder p.body [("f", infiniteRemainder)] := by
  have htypes : Frame.Typed [("f", some .anyFunction)] := Frame.typed_nil.set "f" rfl
  have hnothing : EnvMade [] := fun x v hx => by cases hx
  have hmade : EnvMade [("f", infiniteRemainder)] :=
    hnothing.set (.closure (.binary _ _ (.floatLit _ _) (.ident _ _) (by decide))
      (fun _ _ => .inr (.inr (.inr trivial))) hnothing)
  have hrun : crash? (run "f 2;;" [("f", some .anyFunction)] [("f", infiniteRemainder)] 1000) =
      some .noRemainder := by decide +kernel
  refine ⟨by decide, by decide, htypes, hmade, ?_⟩
  exact (run_ends (by decide) (by decide) htypes hmade).2.1.mp (crash?_eq_some.mp hrun)

/-- Whether a program is a remainder of an infinity and the name given. -/
def isInfiniteRemainder (x : String) (p : Program) : Bool :=
  match p.body with
  | [.exprStmt _ (.binary _ o (.floatLit _ y) (.ident _ z))] =>
    o == "mod" && z == x && Number.view y == .infinite false
  | _ => false

theorem isInfiniteRemainder_reaches {x : String} {p : Program} {values : Env} {n : Int} {frames : Nat}
    {limit : Int} (hp : isInfiniteRemainder x p = true) (hx : values.get? x = some (.int n)) (hn : n ≠ 0) :
    ReachesRemainder (frames + 8) limit
      (fun a b => (¬ ∃ m n, a = .int m ∧ b = .int n) ∧ a.IsInfinite ∧ b.isZero = false ∧ ¬ b.IsNaN)
      p.body values := by
  rw [isInfiniteRemainder] at hp
  split at hp
  next pos₁ pos₂ o pos₃ y pos₄ z hbody =>
    simp only [Bool.and_eq_true, beq_iff_eq] at hp
    obtain ⟨⟨rfl, rfl⟩, hy⟩ := hp
    have hident : eval limit (frames + 3) 0 (.ident pos₄ z) values = .ok (.int n) values := by
      rw [eval, Eval.rule, Eval.ident, get_bind, hx]
      rfl
    refine ⟨[], _, [], [], values, hbody, rfl, _, .single .exprStmt, ?_⟩
    have hwhole : ¬ ∃ k m, Num.float y = .int k ∧ Num.int n = .int m := by
      rintro ⟨k, m, hk, -⟩
      cases hk
    have hzero : (Num.int n).isZero = false := by simpa [Num.isZero] using hn
    exact .mk (a := .float y) (b := .int n) rfl hident ⟨hwhole, ⟨false, hy⟩, hzero, id⟩
  next => cases hp

/-- A whole number that is too large for floating point is no such number: the remainder is reported as too
large, and does not crash. -/
theorem not_run_crash_whole :
    ¬ ∀ (source : String) (types : Frame) (values : Env) (limit : Int), 0 < limit →
      1000 + 10 * limit < Int.pow 2 31 → types.Typed → EnvMade values →
      (run source types values limit = .error .noRemainder ↔
        ∃ p a, accepted? source = some p ∧ analyze p.body types = .ok a ∧ a.ok = true ∧
          ReachesRemainder (frameBudget limit) limit
            (fun a b => (¬ ∃ m n, a = .int m ∧ b = .int n) ∧ a.IsInfinite ∧ b.isZero = false ∧ ¬ b.IsNaN)
            p.body values) := by
  intro h
  have hnothing : EnvMade [] := fun x v hx => by cases hx
  have htypes : Frame.Typed [("n", some .unknown)] := Frame.typed_nil.set "n" rfl
  have hmade : EnvMade [("n", .int (Int.pow 10 309))] := hnothing.set (.int _)
  have hrun : crash? (run "1e999 mod n;;" [("n", some .unknown)] [("n", .int (Int.pow 10 309))] 1000) =
      none := by decide +kernel
  have hprogram : (accepted? "1e999 mod n;;").any (isInfiniteRemainder "n") = true := by decide +kernel
  have hanalysis : (accepted? "1e999 mod n;;").all (fun p =>
      (analyze p.body [("n", some .unknown)]).toOption.any Analysis.ok) = true := by decide +kernel
  cases hp : accepted? "1e999 mod n;;" with
  | none =>
    rw [hp] at hprogram
    cases hprogram
  | some p =>
    rw [hp] at hprogram hanalysis
    cases ha : analyze p.body [("n", some .unknown)] with
    | error c =>
      rw [Option.all_some, ha] at hanalysis
      cases hanalysis
    | ok a =>
      rw [Option.all_some, ha] at hanalysis
      have hreach := @isInfiniteRemainder_reaches "n" p [("n", .int (Int.pow 10 309))] _ 10982 1000 hprogram
        rfl (by decide +kernel)
      have hcrash := (h _ _ _ 1000 (by decide) (by decide) htypes hmade).mpr
        ⟨p, a, hp, ha, hanalysis, hreach⟩
      rw [hcrash] at hrun
      cases hrun

end Camlet
