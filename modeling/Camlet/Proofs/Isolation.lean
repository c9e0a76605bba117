import Camlet.Proofs.Kinds

/-
  Errors of evaluation concern the declaration they occur in. A declaration that fails leaves the
  environment as it was, at whatever depth of calls and local bindings it fails, and an expression on its
  own leaves it so as well. What a program binds is therefore bound by those of its declarations alone
  that have a value and a name for it: the program without the others gives the same results and ends in
  the same environment.
-/

namespace Camlet

/-- Whether a declaration that came to `o` bound a name. -/
def Node.binds : Node → Outcome → Bool
  | _, .error _ => false
  | .exprStmt .., .ok _ => false
  | _, .ok _ => true

/-- The declarations of a run that bound a name, with what they came to. -/
def binders (ds : List Node) (os : List Outcome) : List (Node × Outcome) :=
  (ds.zip os).filter fun q => q.1.binds q.2

section

variable {limit : Int} {frames : Nat} {d : Node} {ds : List Node} {env env' : Env} {o : Outcome}
  {os : List Outcome} {res : Except Failure Value}

theorem binders_cons_of_binds (h : d.binds o = true) :
    binders (d :: ds) (o :: os) = (d, o) :: binders ds os := by
  simp [binders, h]

theorem binders_cons_of_not_binds (h : d.binds o = false) :
    binders (d :: ds) (o :: os) = binders ds os := by
  simp [binders, h]

/-- A declaration that binds no name leaves the environment as it was. -/
theorem evaluated_of_not_binds (hd : IsDeclaration d) (h : evaluated limit frames d env = (res, env'))
    (ho : Outcome.ofRun d res = .ok o) (hb : d.binds o = false) : env' = env := by
  have henv : EnvFits .nothing env := backed_nothing
  obtain ⟨v, rfl, rfl, -⟩ | ⟨f, rfl, rfl, -⟩ :=
    evaluated_declaration hd lenient_true (declaration_fits limit hd henv) h
  · cases hd with
    | exprStmt => rfl
    | letDecl | funDecl =>
      cases ho
      cases hb
  · rfl

/-- The declarations that bind a name come to what they came to among the others. -/
theorem evaluateWithin_binders (hds : ∀ d ∈ ds, IsDeclaration d)
    (h : evaluateWithin frames limit ds env = .ok (os, env')) :
    os.length = ds.length ∧
      evaluateWithin frames limit ((binders ds os).map Prod.fst) env =
        .ok ((binders ds os).map Prod.snd, env') := by
  induction ds generalizing env os with
  | nil =>
    cases h
    exact ⟨rfl, rfl⟩
  | cons d ds ih =>
    obtain ⟨res, env₁, o, os, hres, ho, rfl, hrest⟩ := evaluateWithin_cons h
    obtain ⟨hlen, hih⟩ := ih (fun d hd => hds d (List.mem_cons_of_mem _ hd)) hrest
    refine ⟨congrArg (· + 1) hlen, ?_⟩
    cases hb : d.binds o with
    | true =>
      rw [binders_cons_of_binds hb, List.map_cons, List.map_cons, evaluateWithin_eq, hres]
      exact except_bind_eq_ok.mpr ⟨o, ho, except_bind_eq_ok.mpr ⟨_, hih, rfl⟩⟩
    | false =>
      rw [binders_cons_of_not_binds hb]
      rwa [evaluated_of_not_binds (hds d (List.mem_cons_self ..)) hres ho hb] at hih

end

/-- A program that was read, evaluated under any limit and in any environment, gives the results and the
environment that those of its declarations give alone that bound a name; and a declaration of it that fails,
or is an expression on its own, leaves any environment as it was. -/
theorem evaluate_binders (source : String) (p : Program) (hp : (parse source).program = some p)
    (limit : Int) (env env' : Env) (os : List Outcome) (h : evaluate limit p.body env = .ok (os, env')) :
    os.length = p.body.length ∧
      evaluate limit ((binders p.body os).map Prod.fst) env =
        .ok ((binders p.body os).map Prod.snd, env') ∧
      ∀ d ∈ p.body, ∀ env₁ o env₂, evaluate limit [d] env₁ = .ok ([o], env₂) → d.binds o = false →
        env₂ = env₁ := by
  have hds := parse_isDeclaration hp
  have hstarts := evaluate_starts h
  rw [hstarts] at h
  obtain ⟨hlen, hrun⟩ := evaluateWithin_binders hds h
  refine ⟨hlen, (hstarts _ _).trans hrun, fun d hd env₁ o env₂ hsingle hb => ?_⟩
  rw [hstarts] at hsingle
  obtain ⟨res, env₃, o', os', hres, ho, heq, hnil⟩ := evaluateWithin_cons hsingle
  cases heq
  cases hnil
  exact evaluated_of_not_binds (hds d hd) hres ho hb

/-- A program with a declaration that fails inside a call, and an expression on its own. -/
theorem evaluate_binders_inside_call :
    ∃ p os env', (parse "let f a = a / 0;; let x = 1;; let x = let a = 2 in f a;; x;; let y = x;;").program =
        some p ∧
      evaluate defaultLimit p.body [] = .ok (os, env') ∧
      os.map (Option.map Result.name ∘ Outcome.result?) = [some "f", some "x", none, some "-", some "y"] ∧
      evaluate defaultLimit ((binders p.body os).map Prod.fst) [] =
        .ok ((binders p.body os).map Prod.snd, env') := by
  have hrun : ((parse "let f a = a / 0;; let x = 1;; let x = let a = 2 in f a;; x;; let y = x;;").program.bind
      fun p => (evaluate defaultLimit p.body []).toOption).map
        (fun q => q.1.map (Option.map Result.name ∘ Outcome.result?)) =
      some [some "f", some "x", none, some "-", some "y"] := by decide +kernel
  obtain ⟨⟨os, env'⟩, hq, hnames⟩ := Option.map_eq_some_iff.mp hrun
  obtain ⟨p, hp, heval⟩ := Option.bind_eq_some_iff.mp hq
  have heval := toOption_eq_some.mp heval
  exact ⟨p, os, env', hp, heval, hnames, (evaluate_binders _ p hp defaultLimit [] env' os heval).2.1⟩

end Camlet
