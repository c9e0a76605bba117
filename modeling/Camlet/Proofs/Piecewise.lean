import Camlet.Proofs.Pieces
import Camlet.Proofs.Successes

/-
  A text run at once and in pieces. If a text of closed pieces runs without an error, an interactive session
  that is given the pieces one after the other runs each of them without an error, and comes to the same
  names, types and values, but for places in the bodies of closures.

  The whole run grows one frame and one environment; the session starts every piece with an empty frame
  around which it keeps the types, and with the values it keeps. The two go in step: what the whole run
  has declared the session has under the same type, and their values are alike (`Session.InStep`). A piece
  keeps them so (`Session.InStep.turn`), and so do all pieces in turn.
-/

namespace Camlet

open Stateful

/-! ## What declarations bind -/

theorem Bindings.has_iff_mem {α : Type} {m : Bindings α} {x : String} :
    m.has x = true ↔ x ∈ m.map (·.1) := by
  induction m with
  | nil => simp [Bindings.has]
  | cons e m ih =>
    by_cases hx : e.1 = x
    · simp [Bindings.has, Bindings.get?, hx]
    · have hne : x ≠ e.1 := fun h => hx h.symm
      simp only [Bindings.has, Bindings.get?, hx, if_false, List.map_cons, List.mem_cons, hne, false_or]
      exact ih

section

variable {depth : Nat} {limit : Int} {frames : Nat} {c c₁ : Context} {env env₁ : Env} {d : Node}

/-- A name is declared from then on if it is the name of the declaration, and not `_`. -/
theorem infer_lookup? {t : Typing} (hd : IsDeclaration d) (h : infer depth d c = .ok t c₁) (x : String) :
    c₁.scopes.lookup? x = if d.declared? = some x ∧ x ≠ "_" then some t else c.scopes.lookup? x := by
  have hdeclare : ∀ y, c.scopes.declare y t = .ok c₁.scopes →
      c₁.scopes.lookup? x = if some y = some x ∧ x ≠ "_" then some t else c.scopes.lookup? x := by
    intro y hy
    rw [Scopes.lookup?_declare hy x]
    by_cases hyx : y = x
    · subst hyx
      simp
    · simp [hyx]
  cases hd with
  | letDecl pos y hv => exact hdeclare y (infer_letDecl hv h).2
  | funDecl pos f p ps r hb =>
    obtain ⟨inner, tb, -, -, -, hf⟩ := infer_funDecl hb h
    exact hdeclare f hf
  | exprStmt pos he =>
    rw [(infer_exprStmt he h).2]
    rfl

theorem eval_declaration {v : Value} (hd : IsDeclaration d) (henv : EnvMade env)
    (h : eval limit frames 0 d env = .ok v env₁) : env₁ = d.bound v env ∧ EnvMade env₁ := by
  have hkeeps := declaration_keeps limit hd henv fun _ _ => .inr trivial
  obtain ⟨w, hw, rfl, hmade⟩ | ⟨f, hf, -⟩ :=
    evaluated_declaration hd (lenient_excused _) hkeeps (evaluated_eq_ok.mpr h)
  · cases hw
    exact ⟨rfl, henv.bound hmade⟩
  · cases hf

theorem Node.get?_bound (d : Node) (v : Value) (env : Env) (x : String) :
    (d.bound v env).get? x = if d.declared? = some x then some v else env.get? x := by
  cases d with
  | letDecl | funDecl => simp [Node.bound, Node.declared?, Bindings.get?_set]
  | _ => rfl

end

/-- A result as a binding. -/
def Result.binding (r : Result) : String × Value := (r.name, r.value)

section

variable {limit : Int} {frames : Nat} {c c' : Context} {env env' : Env} {ds : List Node}
  {bs : List (String × Typing)} {vs : List Result}

theorem Succeeds.names (h : Succeeds limit frames c env ds bs vs c' env') :
    vs.map (·.name) = bs.map (·.1) := by
  induction h with
  | nil => rfl
  | cons _ _ _ _ ih => exact congrArg _ ih

/-- After declarations a name has the type that it was last given, or else the one it had. -/
theorem Succeeds.lookup? (h : Succeeds limit frames c env ds bs vs c' env')
    (hds : ∀ d ∈ ds, IsDeclaration d) {x : String} (hx : x ≠ "_") (hdash : x ≠ "-") :
    c'.scopes.lookup? x = (Bindings.get? bs.reverse x).or (c.scopes.lookup? x) := by
  induction h with
  | nil => rfl
  | @cons c c₁ c' env env₁ env' d ds y t v bs vs hinfer _ hname _ ih =>
    obtain ⟨hd, hds⟩ := List.forall_mem_cons.mp hds
    rw [ih hds, Bindings.get?_reverse_cons, infer_lookup? hd hinfer, Option.or_assoc]
    simp only [hd.declared?_iff hname hdash, hx, ne_eq, not_false_eq_true, and_true]
    split <;> rfl

theorem Succeeds.made (h : Succeeds limit frames c env ds bs vs c' env')
    (hds : ∀ d ∈ ds, IsDeclaration d) (henv : EnvMade env) : EnvMade env' := by
  induction h with
  | nil => exact henv
  | cons _ heval _ _ ih =>
    obtain ⟨hd, hds⟩ := List.forall_mem_cons.mp hds
    exact ih hds (eval_declaration hd henv heval).2

/-- After declarations a name has the value that it was last given, or else the one it had. -/
theorem Succeeds.get? (h : Succeeds limit frames c env ds bs vs c' env')
    (hds : ∀ d ∈ ds, IsDeclaration d) (henv : EnvMade env) {x : String} (hdash : x ≠ "-") :
    env'.get? x = (Bindings.get? (vs.map Result.binding).reverse x).or (env.get? x) := by
  induction h with
  | nil => rfl
  | @cons c c₁ c' env env₁ env' d ds y t v bs vs _ heval hname _ ih =>
    obtain ⟨hd, hds⟩ := List.forall_mem_cons.mp hds
    obtain ⟨rfl, hmade⟩ := eval_declaration hd henv heval
    rw [ih hds hmade, List.map_cons, Result.binding, Bindings.get?_reverse_cons, Node.get?_bound,
      Option.or_assoc]
    simp only [hd.declared?_iff hname hdash]
    split <;> rfl

/-- Neither `_` nor `-` has a type. -/
structure Context.Plain (c : Context) : Prop where
  underscore : c.scopes.lookup? "_" = none
  dash : c.scopes.lookup? "-" = none

theorem Succeeds.plain (h : Succeeds limit frames c env ds bs vs c' env')
    (hds : ∀ d ∈ ds, IsDeclaration d) (hdash : ∀ d ∈ ds, d.declared? ≠ some "-") (hc : c.Plain) :
    c'.Plain := by
  induction h with
  | nil => exact hc
  | cons hinfer _ _ _ ih =>
    obtain ⟨hd, hds⟩ := List.forall_mem_cons.mp hds
    obtain ⟨hne, hdash⟩ := List.forall_mem_cons.mp hdash
    refine ih hds hdash ⟨?_, ?_⟩
    · rw [infer_lookup? hd hinfer, if_neg fun h => h.2 rfl]
      exact hc.underscore
    · rw [infer_lookup? hd hinfer, if_neg fun h => hne h.1]
      exact hc.dash

theorem Succeeds.get?_dash (h : Succeeds limit frames c env ds bs vs c' env')
    (hds : ∀ d ∈ ds, IsDeclaration d) (hdash : ∀ d ∈ ds, d.declared? ≠ some "-") (henv : EnvMade env) :
    env'.get? "-" = env.get? "-" := by
  induction h with
  | nil => rfl
  | cons _ heval _ _ ih =>
    obtain ⟨hd, hds⟩ := List.forall_mem_cons.mp hds
    obtain ⟨hne, hdash⟩ := List.forall_mem_cons.mp hdash
    obtain ⟨rfl, hmade⟩ := eval_declaration hd henv heval
    rw [ih hds hdash hmade, Node.get?_bound, if_neg hne]

end

/-! ## Turns that are not ended early -/

/-- The outcomes of a run without a fault of evaluation are its results. -/
theorem outcomes_eq {r : Run} (h : r.runtimeErrors = []) : r.outcomes = r.results.map .ok := by
  unfold Run.runtimeErrors at h
  unfold Run.results
  generalize r.outcomes = os at h ⊢
  induction os with
  | nil => rfl
  | cons o os ih =>
    cases o with
    | error f => cases h
    | ok v => exact congrArg (Except.ok v :: ·) (ih h)

namespace Console

/-- A step of output that is not ended early. -/
def Completes (x : Console Unit) : Prop := ∀ out, ∃ out', x out = .ok () out'

theorem completes_pure : Completes (pure ()) := fun out => ⟨out, rfl⟩

theorem completes_write (text : String) : Completes (write text) := fun _ => ⟨_, rfl⟩

theorem Completes.bind {x y : Console Unit} (hx : Completes x) (hy : Completes y) :
    Completes (x >>= fun _ => y) := by
  intro out
  obtain ⟨out₁, h₁⟩ := hx out
  obtain ⟨out₂, h₂⟩ := hy out₁
  exact ⟨out₂, (bind_ok h₁ _).trans h₂⟩

end Console

namespace Session

open Console

theorem completes_showOutcomes (reporter : Reporter) {vs : List Result}
    (hshown : ∀ v ∈ vs, ∃ line, v.text = .ok line) :
    Completes (showOutcomes reporter (vs.map .ok)) := by
  induction vs with
  | nil => exact fun out => ⟨out, rfl⟩
  | cons v vs ih =>
    obtain ⟨⟨line, hline⟩, hvs⟩ := List.forall_mem_cons.mp hshown
    rw [List.map_cons, showOutcomes, hline]
    exact (completes_write _).bind (ih hvs)

theorem completes_showStages {options : Options} (htree : options.showTree = false) (r : Run) :
    Completes (showStages options r) := by
  unfold showStages
  rw [htree]
  cases options.showTokens with
  | false => cases r.program <;> exact completes_pure
  | true => cases r.program <;> exact (completes_write _).bind completes_pure

theorem completes_showRun (reporter : Reporter) {options : Options} {r : Run} (hok : r.ok = true)
    (htree : options.showTree = false) (hshown : ∀ v ∈ r.results, ∃ line, v.text = .ok line) :
    Completes (showRun reporter options r) := by
  obtain ⟨hreading, htype, hruntime⟩ := Run.ok_iff.mp hok
  have hnone : Completes (reporter.failAll []) := completes_write _
  unfold showRun
  rw [hreading, outcomes_eq hruntime]
  refine (completes_showStages htree r).bind (hnone.bind ?_)
  cases ha : r.analysis with
  | none => exact completes_pure
  | some a =>
    have herrors : a.errors = [] := by rwa [Run.typeErrors, ha] at htype
    dsimp only
    rw [herrors]
    exact (completes_write _).bind (hnone.bind (completes_showOutcomes reporter hshown))

theorem turn_completes {s : Session} {source : String} {r : Run}
    (h : run source s.types s.values s.options.limit = .ok r) (hok : r.ok = true)
    (htree : s.options.showTree = false) (hshown : ∀ v ∈ r.results, ∃ line, v.text = .ok line) :
    (s.turn source).ending = .ok r ∧ (s.turn source).session = (s.at source).absorb r := by
  obtain ⟨out, hout⟩ := completes_showRun (s.reporter.register s.path source) hok htree hshown ""
  have hruntime := (Run.ok_iff.mp hok).2.2
  have hturn : s.turn source = ⟨out, (s.at source).absorb r, .ok r⟩ := by
    simp only [turn, h, collect, hout, hruntime, List.isEmpty_nil, Bool.not_true, Bool.false_and,
      Bool.false_eq_true, if_false]
    rfl
  rw [hturn]
  exact ⟨rfl, rfl⟩

/-- The turns of texts one after the other. -/
def turns (s : Session) : List String → List Turn
  | [] => []
  | source :: sources => s.turn source :: (s.turn source).session.turns sources

/-! ## The session and the whole run -/

/-- The session goes in step with a run that has come to a context and an environment: it prints no trees
and has the same limit, it has every type that the run has declared, and the values are alike. -/
structure InStep (s : Session) (limit : Int) (c : Context) (env : Env) : Prop where
  interactive : s.interactive = true
  showTree : s.options.showTree = false
  limit : s.options.limit = limit
  types : ∀ x t, c.scopes.lookup? x = some t → s.types.get? x = some t
  values : EnvAlike env s.values
  made : EnvMade s.values

end Session

theorem lookup?_ofSeed (types : Frame) (x : String) : (Scopes.ofSeed types).lookup? x = types.get? x := by
  unfold Scopes.ofSeed
  cases types with
  | nil => rfl
  | cons e types =>
    simp only [List.isEmpty_cons, Bool.false_eq_true, if_false, Scopes.lookup?, Bindings.get?_nil]
    split
    next hx => rw [hx]
    next hx => rw [hx]

/-- The scopes around a piece can stand for those of the whole run. -/
theorem replacedBy_ofSeed {c : Context} {types : Frame}
    (h : ∀ x t, c.scopes.lookup? x = some t → types.get? x = some t) :
    ReplacedBy c ⟨.ofSeed types, []⟩ := by
  refine ⟨fun x t hx => (lookup?_ofSeed types x).trans (h x t hx), fun x hx => ?_⟩
  unfold Scopes.ofSeed at hx
  split at hx <;> cases hx

/-! ### What an interactive session keeps of a piece -/

theorem evaluated_iff_has (r : Run) (x : String) :
    Session.evaluated r x = true ↔ Bindings.has (r.results.map Result.binding).reverse x = true := by
  rw [Bindings.has_iff_mem]
  simp [Session.evaluated, Result.binding]

section

variable {s : Session} {r : Run} {a : Analysis} {limit : Int} {frames : Nat} {c c' : Context}
  {ds : List Node} (hi : s.interactive = true) (ha : r.analysis = some a)
  (h : Succeeds limit frames c s.values ds r.bindings r.results c' r.env)
  (hds : ∀ d ∈ ds, IsDeclaration d) (hmade : EnvMade s.values) {x : String}

include hi ha h hds hmade

/-- The session has the values of the environment that a run without an error ends in. -/
theorem absorb_get? (hdash : ∀ d ∈ ds, d.declared? ≠ some "-") :
    (s.absorb r).values.get? x = r.env.get? x := by
  rw [absorb_values hi ha]
  by_cases hx : x = "-"
  · -- Results of expressions have this name, but no environment has it.
    rw [hx, h.get?_dash hds hdash hmade]
    cases s.values.get? "-" with
    | none => split <;> rfl
    | some v => split <;> rfl
  · have heval := evaluated_iff_has r x
    rw [Bindings.has] at heval
    rw [h.get? hds hmade hx]
    cases hlast : Bindings.get? (r.results.map Result.binding).reverse x with
    | none =>
      rw [hlast, Option.isSome_none, Bool.false_eq_true, iff_false] at heval
      rw [if_neg heval]
    | some v =>
      rw [hlast, Option.isSome_some, eq_self, iff_true] at heval
      rw [if_pos heval]
      rfl

/-- It has the types that a run without an error gave last, and else those that it had. -/
theorem absorb_lookup? (hx : x ≠ "-") :
    (s.absorb r).types.get? x = (Bindings.get? r.bindings.reverse x).or (s.types.get? x) := by
  have hbindings : r.bindings = a.bindings := by rw [Run.bindings, ha]; rfl
  rw [absorb_types hi ha, ← hbindings]
  cases hlast : Bindings.get? r.bindings.reverse x with
  | none => split <;> rfl
  | some t =>
    have hnamed : Bindings.has (r.results.map Result.binding).reverse x = true := by
      have hmem := Bindings.has_iff_mem.mp (congrArg Option.isSome hlast)
      rw [List.map_reverse, ← h.names] at hmem
      rw [Bindings.has_iff_mem, List.map_reverse, List.map_map]
      exact hmem
    have hbound : Bindings.has r.env x = true := by
      rw [Bindings.has, h.get? hds hmade hx, Option.isSome_or]
      exact (Bool.or_eq_true _ _).mpr (.inl hnamed)
    rw [(evaluated_iff_has r x).mpr hnamed, hbound]
    rfl

omit h hds hmade ha hi in
theorem absorb_none (hnone : r.analysis = none) : s.absorb r = s := by
  rcases absorb_cases s r with heq | ⟨-, a, ha⟩
  · exact heq
  · rw [hnone] at ha
    cases ha

end

/-! ### The steps of the session -/

theorem EnvAlike.congr {env e e' : Env} (h : EnvAlike env e) (hget : ∀ x, e'.get? x = e.get? x) :
    EnvAlike env e' := by
  refine ⟨fun x => ?_, fun x v w hv hw => h.get x v w hv (hget x ▸ hw)⟩
  rw [h.has, Bindings.has, Bindings.has, hget]

/-- Results that are alike are shown alike. -/
theorem shown_alike {vs ws : List Result} (h : List.Forall₂ Result.Alike vs ws)
    (hshown : ∀ v ∈ vs, ∃ line, v.text = .ok line) : ∀ w ∈ ws, ∃ line, w.text = .ok line := by
  induction h with
  | nil => exact List.forall_mem_nil _
  | cons hvw _ ih =>
    obtain ⟨hv, hvs⟩ := List.forall_mem_cons.mp hshown
    exact List.forall_mem_cons.mpr ⟨hvw.text ▸ hv, ih hvs⟩

section

variable {source : String} {s : Session} {limit : Int} {c c' : Context} {env env' : Env} {ds : List Node}
  {bs : List (String × Typing)} {vs : List Result}

theorem Session.InStep.at (hs : s.InStep limit c env) (source : String) : (s.at source).InStep limit c env :=
  ⟨hs.interactive, hs.showTree, hs.limit, hs.types, hs.values, hs.made⟩

/-- What the session keeps of a piece in which something is declared keeps it in step. -/
theorem Session.InStep.absorb {frames : Nat} {k k' : Context} {ps : List Node} {r : Run} {a : Analysis}
    (hs : s.InStep limit c env) (h : Succeeds limit frames c env ds r.bindings vs c' env')
    (hds : ∀ d ∈ ds, IsDeclaration d) (hplain : c'.Plain) (ha : r.analysis = some a)
    (hpiece : Succeeds limit frames k s.values ps r.bindings r.results k' r.env)
    (hps : ∀ d ∈ ps, IsDeclaration d) (hdash : ∀ d ∈ ps, d.declared? ≠ some "-")
    (henv : EnvAlike env' r.env) : (s.absorb r).InStep limit c' env' := by
  have hget : ∀ x, (s.absorb r).values.get? x = r.env.get? x := fun x =>
    absorb_get? hs.interactive ha hpiece hps hs.made hdash
  obtain ⟨hi, hoptions, -⟩ := absorb_unchanged s r
  -- What is kept under `_` and `-` may differ from the whole run, in which they have no type.
  refine ⟨hi.trans hs.interactive, hoptions ▸ hs.showTree, hoptions ▸ hs.limit, fun x t hx => ?_,
    henv.congr hget, fun x v hx => hpiece.made hps hs.made x v (hget x ▸ hx)⟩
  have hunderscore : x ≠ "_" := by
    rintro rfl
    exact absurd (hplain.underscore.symm.trans hx) nofun
  have hdash : x ≠ "-" := by
    rintro rfl
    exact absurd (hplain.dash.symm.trans hx) nofun
  rw [h.lookup? hds hunderscore hdash] at hx
  rw [absorb_lookup? hs.interactive ha hpiece hps hs.made hdash]
  rcases Option.or_eq_some_iff.mp hx with hlast | ⟨hnot, hbefore⟩
  · rw [hlast]
    rfl
  · rw [hnot]
    exact hs.types x t hbefore

/-- A piece keeps the session in step, and comes to what it comes to in the whole run. -/
theorem Session.InStep.turn (hs : s.InStep limit c env) (hread : ReadElsewhere source ds)
    (hstarts : ds ≠ [] → Starts limit)
    (h : Succeeds limit (frameBudget limit) c env ds bs vs c' env') (hds : ∀ d ∈ ds, IsDeclaration d)
    (hdash : ∀ d ∈ ds, d.declared? ≠ some "-") (hc : c.Plain)
    (hshown : ∀ v ∈ vs, ∃ line, v.text = .ok line) :
    ∃ r, (s.turn source).ending = .ok r ∧ r.ok = true ∧ List.Forall₂ Result.Alike vs r.results ∧
      r.bindings = bs ∧ (s.turn source).session.InStep limit c' env' := by
  obtain ⟨herrors, f, hmoved⟩ := hread
  obtain ⟨ws, k, e, hpiece, hvs, -, henv⟩ := h.moved hds (replacedBy_ofSeed hs.types) hs.values f
  have hne : ds ≠ [] ↔ (parse source).declarations ≠ [] := by
    rw [hmoved, ne_eq, ne_eq, List.map_eq_nil_iff]
  rw [← hmoved] at hpiece
  obtain ⟨r, hrun, hok, rfl, rfl, hnone, hsome⟩ :=
    run_of_succeeds herrors (fun hds' => hstarts (hne.mpr hds')) hpiece
  obtain ⟨hending, hsession⟩ := turn_completes (hs.limit ▸ hrun) hok hs.showTree (shown_alike hvs hshown)
  refine ⟨r, hending, hok, hvs, rfl, ?_⟩
  rw [hsession]
  by_cases hnil : ds = []
  · -- Nothing is analyzed and nothing is kept, also not an empty environment.
    subst hnil
    generalize r.bindings = bs at h
    cases h
    rw [absorb_none (hnone hmoved)]
    exact hs.at source
  · obtain ⟨rfl, a, ha⟩ := hsome (hne.mp hnil)
    exact (hs.at source).absorb h hds (h.plain hds hdash hc) ha hpiece (parse_declarations source)
      (parse_declared_ne_dash herrors) henv

/-- All pieces in turn keep the session in step. -/
theorem Session.InStep.turns {sources : List String} {pieces : List (List Node)}
    (hread : List.Forall₂ ReadElsewhere sources pieces) (hs : s.InStep limit c env)
    (hstarts : pieces.flatten ≠ [] → Starts limit)
    (h : Succeeds limit (frameBudget limit) c env pieces.flatten bs vs c' env')
    (hds : ∀ d ∈ pieces.flatten, IsDeclaration d) (hdash : ∀ d ∈ pieces.flatten, d.declared? ≠ some "-")
    (hc : c.Plain) (hshown : ∀ v ∈ vs, ∃ line, v.text = .ok line) :
    ∃ rs : List Run, (s.turns sources).map Turn.ending = rs.map .ok ∧ (∀ r ∈ rs, r.ok = true) ∧
      List.Forall₂ Result.Alike vs (rs.flatMap Run.results) ∧ rs.flatMap Run.bindings = bs ∧
      (s.after sources).InStep limit c' env' := by
  induction hread generalizing s c env bs vs with
  | nil =>
    cases h
    exact ⟨[], rfl, List.forall_mem_nil _, .nil, rfl, hs⟩
  | @cons source ds sources pieces hfirst _ ih =>
    rw [List.flatten_cons] at hstarts h hds hdash
    obtain ⟨bs₁, bs₂, vs₁, vs₂, c₁, env₁, rfl, rfl, h₁, h₂⟩ := h.append_inv
    obtain ⟨hds₁, hds₂⟩ := List.forall_mem_append.mp hds
    obtain ⟨hdash₁, hdash₂⟩ := List.forall_mem_append.mp hdash
    obtain ⟨hshown₁, hshown₂⟩ := List.forall_mem_append.mp hshown
    have hstarts₁ : ds ≠ [] → Starts limit := fun hne => hstarts fun hnil =>
      hne (List.append_eq_nil_iff.mp hnil).1
    have hstarts₂ : pieces.flatten ≠ [] → Starts limit := fun hne => hstarts fun hnil =>
      hne (List.append_eq_nil_iff.mp hnil).2
    obtain ⟨r, hending, hok, hvs₁, rfl, hs₁⟩ := hs.turn hfirst hstarts₁ h₁ hds₁ hdash₁ hc hshown₁
    obtain ⟨rs, hendings, hoks, hvs₂, rfl, hs₂⟩ :=
      ih hs₁ hstarts₂ h₂ hds₂ hdash₂ (h₁.plain hds₁ hdash₁ hc) hshown₂
    refine ⟨r :: rs, ?_, List.forall_mem_cons.mpr ⟨hok, hoks⟩, ?_, rfl, hs₂⟩
    · rw [Session.turns, List.map_cons, List.map_cons, hending, hendings]
    · exact List.rel_append hvs₁ hvs₂

end

/-! ## The whole text and its pieces -/

end Camlet
