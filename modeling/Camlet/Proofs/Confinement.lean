import Camlet.Proofs.Lookups
import Camlet.Proofs.Refusals
import Camlet.Proofs.Runs

/-
  What the analysis leaves behind. The analysis of an expression opens scopes and declares names in them, and
  it can stop at a fault inside any of them; but however it ends, the scopes are as they were before. So a
  declaration that is refused leaves no trace in the scopes, and one that passes adds its own name to the
  innermost frame and nothing else.

  It follows that the declarations that are refused do not matter to the others: without them, a program is
  analyzed without a fault, with the same bindings and the same type.
-/

namespace Camlet

open Stateful

/-! ## Expressions -/

/-- The scopes that a step leaves, whether it goes well or not. -/
def Check.scopesAfter {α : Type} (x : Check α) (c : Context) : Scopes :=
  match x c with
  | .ok _ c' => c'.scopes
  | .error _ c' => c'.scopes

/-- A step that ends in the same way in any scopes and in the same ones leaves them as they were. -/
theorem Infer.Alike.scopesAfter {x : Check Typing} {c : Context} (h : Alike c.scopes c.scopes x) :
    x.scopesAfter c = c.scopes := by
  have hend := h c c ⟨rfl, rfl, rfl⟩
  unfold Check.scopesAfter
  generalize x c = r at hend ⊢
  cases hend with
  | ok _ hc => exact hc.left
  | error hc => exact hc.left

/-- The analysis of an expression leaves the scopes as they were, however it ends. -/
theorem infer_scopesAfter (depth : Nat) {e : Node} (he : IsExpression e) (c : Context) :
    (infer depth e).scopesAfter c = c.scopes :=
  Infer.Alike.scopesAfter (infer_steady depth he _ _ fun _ _ => rfl)

/-! ## Declarations -/

/-- The scopes after a declaration of type `t` that passed in the scopes `s`: its own name, unless that is `_`,
is new in the innermost frame, and all else is as before. -/
def Node.Extends (d : Node) (t : Typing) (s s' : Scopes) : Prop :=
  match d.declared? with
  | some x => if x = "_" then s' = s else (s.headD []).has x = false ∧ s' = s.assign x t
  | none => s' = s

theorem Node.extends_of_declare {d : Node} {x : String} {t : Typing} {s s' : Scopes}
    (hx : d.declared? = some x) (h : s.declare x t = .ok s') : d.Extends t s s' := by
  unfold Node.Extends
  rw [hx]
  dsimp only
  rcases Scopes.declare_eq_ok.mp h with ⟨hwild, hs⟩ | ⟨hwild, hopen, hs⟩
  · rwa [if_pos hwild]
  · rw [if_neg hwild]
    exact ⟨hopen, hs⟩

/-- A declaration that passes the analysis extends the scopes. -/
theorem infer_extends {depth : Nat} {d : Node} {t : Typing} {c c' : Context} (hd : IsDeclaration d)
    (h : infer depth d c = .ok t c') : d.Extends t c.scopes c'.scopes := by
  cases hd with
  | letDecl pos x hv => exact Node.extends_of_declare rfl (infer_letDecl hv h).2
  | funDecl pos f p ps r hb =>
    obtain ⟨_, _, -, -, -, hdeclare⟩ := infer_funDecl hb h
    exact Node.extends_of_declare rfl hdeclare
  | exprStmt pos he => exact (infer_exprStmt he h).2

/-- A step that leaves the scopes as they were, followed by a declaration that is refused, does so as well. -/
theorem declare_refused {x : Check Typing} {k : Typing → Typing} {pos : Pos} {name : String} {c c' : Context}
    {r : Refusal} (hx : x.scopesAfter c = c.scopes)
    (h : (x >>= fun t => Check.declare pos name (k t) >>= fun _ => pure (k t)) c = .error r c') :
    c'.scopes = c.scopes := by
  rcases bind_eq_error.mp h with h₁ | ⟨t, c₁, h₁, h₂⟩
  · rwa [Check.scopesAfter, h₁] at hx
  · rw [Check.scopesAfter, h₁] at hx
    rcases bind_eq_error.mp h₂ with h₃ | ⟨_, c₂, -, h₃⟩
    · rw [Check.declare, get_bind] at h₃
      cases hd : c₁.scopes.declare name (k t) with
      | ok s =>
        rw [hd] at h₃
        cases h₃
      | error f =>
        rw [hd] at h₃
        cases h₃
        exact hx
    · cases h₃

/-- A declaration that is refused leaves the scopes as they were. -/
theorem infer_refused {depth : Nat} {d : Node} {r : Refusal} {c c' : Context} (hd : IsDeclaration d)
    (h : infer depth d c = .error r c') : c'.scopes = c.scopes := by
  cases depth with
  | zero =>
    cases h
    rfl
  | succ depth =>
    cases hd with
    | letDecl pos x hv => exact declare_refused (k := id) (infer_scopesAfter depth hv c) h
    | funDecl pos f p ps r hb =>
      refine declare_refused (Infer.Alike.scopesAfter (Infer.matches_funBody (infer_steady depth hb) ?_)) h
      exact fun _ _ => rfl
    | @exprStmt pos e he =>
      have hscopes := infer_scopesAfter depth he c
      rwa [Check.scopesAfter, show infer depth e c = .error r c' from h] at hscopes

/-! ## Programs without the declarations that are refused -/

/-- The declarations that pass the analysis, each after those in front of it. -/
def Analysis.passing (depth : Nat) : Context → List Node → List Node
  | _, [] => []
  | c, d :: ds =>
    match infer depth d c with
    | .ok _ c' => d :: passing depth c' ds
    | .error _ c' => passing depth c' ds

section

variable {depth : Nat} {c c' : Context} {d : Node} {ds : List Node} {bs : List (String × Typing)}
  {fs : List (Located TypeFault)} {ws : List (Located Warning)}

/-- If the analysis comes to its end, the first declaration has a name and passes, or there is a fault for it;
the others are analyzed in the scopes that it leaves. -/
theorem declarations_step (h : Analysis.declarations depth c (d :: ds) = .ok (bs, fs, ws)) :
    (∃ t c₁ name bs', infer depth d c = .ok t c₁ ∧ d.name? = some name ∧ bs = (name, t) :: bs' ∧
        Analysis.declarations depth c₁ ds = .ok (bs', fs, ws)) ∨
      ∃ r c₁ f fs', infer depth d c = .error r c₁ ∧ r.blame d.pos = .ok f ∧ fs = f :: fs' ∧
        Analysis.declarations depth c₁ ds = .ok (bs, fs', ws) := by
  cases hinfer : infer depth d c with
  | ok t c₁ =>
    cases hname : d.name? with
    | none => simp [Analysis.declarations, hinfer, hname] at h
    | some name =>
      rw [declarations_passed hinfer hname] at h
      obtain ⟨⟨bs', fs', ws'⟩, hds, heq⟩ := except_bind_eq_ok.mp h
      cases heq
      exact .inl ⟨t, c₁, name, bs', rfl, rfl, rfl, hds⟩
  | error r c₁ =>
    rw [declarations_refused hinfer] at h
    obtain ⟨f, hf, h⟩ := except_bind_eq_ok.mp h
    obtain ⟨⟨bs', fs', ws'⟩, hds, heq⟩ := except_bind_eq_ok.mp h
    cases heq
    exact .inr ⟨r, c₁, f, fs', rfl, hf, rfl, hds⟩

theorem passing_passed {t : Typing} {c₁ : Context} (h : infer depth d c = .ok t c₁) :
    Analysis.passing depth c (d :: ds) = d :: Analysis.passing depth c₁ ds := by
  simp only [Analysis.passing, h]

theorem passing_refused {r : Refusal} {c₁ : Context} (h : infer depth d c = .error r c₁) :
    Analysis.passing depth c (d :: ds) = Analysis.passing depth c₁ ds := by
  simp only [Analysis.passing, h]

/-- There is one declaration less for each fault. -/
theorem length_passing (h : Analysis.declarations depth c ds = .ok (bs, fs, ws)) :
    (Analysis.passing depth c ds).length + fs.length = ds.length := by
  induction ds generalizing c bs fs with
  | nil =>
    cases h
    rfl
  | cons d ds ih =>
    rcases declarations_step h with ⟨t, c₁, name, bs', hinfer, -, -, hds⟩ | ⟨r, c₁, f, fs', hinfer, -, rfl, hds⟩
    · rw [passing_passed hinfer, List.length_cons, List.length_cons, ← ih hds]
      omega
    · rw [passing_refused hinfer, List.length_cons, List.length_cons, ← ih hds]
      omega

/-- The declarations that pass are analyzed without a fault and with the same bindings, in any scopes that can
replace the ones in which all are analyzed: those that are refused leave nothing that others could use. -/
theorem declarations_passing (hds : ∀ d ∈ ds, IsDeclaration d) (hc : ReplacedBy c c')
    (h : Analysis.declarations depth c ds = .ok (bs, fs, ws)) :
    ∃ ws', Analysis.declarations depth c' (Analysis.passing depth c ds) = .ok (bs, [], ws') := by
  induction ds generalizing c c' bs fs with
  | nil =>
    cases h
    exact ⟨c'.warnings, rfl⟩
  | cons d ds ih =>
    obtain ⟨hd, hds⟩ := List.forall_mem_cons.mp hds
    rcases declarations_step h with ⟨t, c₁, name, bs', hinfer, hname, rfl, hrest⟩ | ⟨r, c₁, f, fs', hinfer, -, -, hrest⟩
    · have hmirrors := infer_declaration_mirrors depth hd id
      rw [Node.moved_id] at hmirrors
      obtain ⟨_, c₁', hinfer', rfl, hc₁⟩ := hmirrors c c' hc t c₁ hinfer
      obtain ⟨ws', hpassing⟩ := ih hds hc₁ hrest
      rw [passing_passed hinfer, declarations_passed hinfer' hname, hpassing]
      exact ⟨ws', rfl⟩
    · rw [passing_refused hinfer]
      refine ih hds ?_ hrest
      rw [ReplacedBy, infer_refused hd hinfer]
      exact hc

end

/-- The declarations of a program that pass the analysis in surroundings that declare the names of `seed`. -/
def passing (body : List Node) (seed : Frame) : List Node :=
  Analysis.passing analysisDepth ⟨.ofSeed seed, []⟩ body

/-- Whatever program was read and wherever it is analyzed: the analysis of an expression leaves all frames as
they were, however it ends; a declaration that is refused leaves them so as well, and one that passes adds its
own name to the innermost. So without the declarations that are refused, and there is a fault for each of those,
the program is analyzed without a fault, with the same bindings and the same type; and there is an analysis of
it unless a name in the surroundings has no type. -/
theorem analysis_confined (source : String) (p : Program) (hp : (parse source).program = some p) :
    (∀ depth e c, IsExpression e → (infer depth e).scopesAfter c = c.scopes) ∧
      (∀ d ∈ p.body, ∀ depth c,
        (∀ r c', infer depth d c = .error r c' → c'.scopes = c.scopes) ∧
        ∀ t c', infer depth d c = .ok t c' → d.Extends t c.scopes c'.scopes) ∧
      ∀ seed : Frame, (seed.Typed → ∃ a, analyze p.body seed = .ok a) ∧
        ∀ a, analyze p.body seed = .ok a →
          (passing p.body seed).length + a.errors.length = p.body.length ∧
          ∃ a', analyze (passing p.body seed) seed = .ok a' ∧ a'.errors = [] ∧ a'.bindings = a.bindings ∧
            a'.type = a.type := by
  have hds := parse_isDeclaration hp
  refine ⟨fun depth e c he => infer_scopesAfter depth he c, fun d hd depth c => ?_, fun seed => ⟨fun hseed => ?_, ?_⟩⟩
  · exact ⟨fun r c' h => infer_refused (hds d hd) h, fun t c' h => infer_extends (hds d hd) h⟩
  · obtain ⟨a, ha, -⟩ := analyze_typed hseed hds
    exact ⟨a, ha⟩
  · intro a ha
    obtain ⟨⟨bs, fs, ws⟩, hdecls, heq⟩ := except_bind_eq_ok.mp ha
    cases heq
    have hsame : ReplacedBy ⟨.ofSeed seed, []⟩ ⟨.ofSeed seed, []⟩ := ⟨fun _ _ h => h, fun _ h => h⟩
    obtain ⟨ws', hpassing⟩ := declarations_passing hds hsame hdecls
    exact ⟨length_passing hdecls, _, except_bind_eq_ok.mpr ⟨_, hpassing, rfl⟩, rfl, rfl, rfl⟩

/-- A recursive function that is refused for what stands in its body, and a call of it, which is refused as its
name is not declared. -/
theorem analysis_confined_recursive :
    ∃ p a, (parse "let x = 1;; let rec f y = y + g;; let z = x;; f 1;; z + x;;").program = some p ∧
      analyze p.body [] = .ok a ∧ a.errors.map Located.val = [.undeclared "g", .undeclared "f"] ∧
      (passing p.body []).length = 3 ∧
      ∃ a', analyze (passing p.body []) [] = .ok a' ∧ a'.errors = [] ∧ a'.bindings = a.bindings ∧
        a'.type = a.type := by
  have hrun : (parse "let x = 1;; let rec f y = y + g;; let z = x;; f 1;; z + x;;").program.any
      (fun p => p.body.length == 5 && (analyze p.body []).toOption.any fun a =>
        a.errors.map Located.val == [.undeclared "g", .undeclared "f"]) = true := by decide +kernel
  obtain ⟨p, hp, hrun⟩ := (Option.any_eq_true _ _).mp hrun
  obtain ⟨hlength, hrun⟩ := (Bool.and_eq_true _ _).mp hrun
  obtain ⟨a, ha, herrors⟩ := (Option.any_eq_true _ _).mp hrun
  have ha := toOption_eq_some.mp ha
  have herrors : a.errors.map Located.val = [.undeclared "g", .undeclared "f"] := by simpa using herrors
  obtain ⟨hcount, hrest⟩ := ((analysis_confined _ p hp).2.2 []).2 a ha
  have herrors' := congrArg List.length herrors
  simp only [List.length_map, List.length_cons, List.length_nil] at herrors'
  have hlength' : p.body.length = 5 := by simpa using hlength
  exact ⟨p, a, hp, ha, herrors, by omega, hrest⟩

end Camlet
