import Camlet.Proofs.Kinds
import Camlet.Proofs.Names

/-
  The name `_`. Declaring it declares nothing, so that no parameter, pattern or plain binding that is spelled
  `_` can be referred to. Two things go around the declaration of names, and declare `_` as any other name: a
  recursive binding of it, in the expression behind it or in the body of the function; and an interactive
  session, which takes a value that was given to `_` over to the texts that follow. Wherever neither is the
  case, a program that passes the analysis does not refer to `_`.
-/

namespace Camlet

namespace Node

mutual

/-- The places in a tree that refer to `_`, but for those where a recursive binding of it is known. -/
def bare : Node → List Pos
  | letDecl _ _ v => v.bare
  | funDecl _ f _ b r => if r = true ∧ f = "_" then [] else b.bare
  | exprStmt _ e => e.bare
  | letIn _ x v b r => v.bare ++ if r = true ∧ x = "_" then [] else b.bare
  | cond _ c t e => c.bare ++ t.bare ++ e.bare
  | matching _ s cs => s.bare ++ casesBare cs
  | lambda _ _ b => b.bare
  | apply _ f a => f.bare ++ a.bare
  | binary _ _ l r => l.bare ++ r.bare
  | unary _ _ e => e.bare
  | ident pos x => if x = "_" then [pos] else []
  | _ => []

/-- The places in cases that refer to `_`. -/
def casesBare : List (Node × Node) → List Pos
  | [] => []
  | (_, e) :: cs => e.bare ++ casesBare cs

end

theorem casesBare_eq_nil {cs : List (Node × Node)} : casesBare cs = [] ↔ ∀ c ∈ cs, c.2.bare = [] := by
  induction cs with
  | nil => simp [casesBare]
  | cons c cs ih =>
    obtain ⟨p, e⟩ := c
    simp [casesBare, ih]

end Node

/-! ## Scopes that do not declare it -/

section

variable {s s' : Scopes} {x : String} {t : Typing} {f : Frame}

theorem not_declares_cons (hf : f.has "_" = false) (hs : ¬ s.Declares "_") :
    ¬ Scopes.Declares (f :: s) "_" := by
  rw [Scopes.declares_cons, hf]
  exact fun h => h.elim nofun hs

theorem has_own_underscore : (Frame.own x t).has "_" = false := by
  unfold Frame.own
  split
  next => rfl
  next hx => simp [Bindings.has, Bindings.get?, hx]

theorem has_ofPattern_underscore (p : Node) : (Frame.ofPattern p).has "_" = false := by
  cases p with
  | bind pos x => exact has_own_underscore
  | _ => rfl

/-- Declaring a name, even this one, does not declare it. -/
theorem declare_underscore (h : s.declare x t = .ok s') : s'.lookup? "_" = s.lookup? "_" := by
  rw [Scopes.lookup?_declare h, if_neg fun h => h.2 h.1]

theorem params_underscore {pos : Pos} {ps : List String} {c c' : Context} {u : Unit}
    (h : Infer.params pos ps c = .ok u c') : c'.scopes.lookup? "_" = c.scopes.lookup? "_" := by
  induction ps generalizing c with
  | nil =>
    cases h
    rfl
  | cons p ps ih =>
    obtain ⟨_, c₁, h₁, h₂⟩ := Stateful.bind_eq_ok.mp h
    obtain ⟨s', hs', rfl⟩ := declare_eq_ok.mp h₁
    exact (ih h₂).trans (declare_underscore hs')

end

/-- Where `_` is not declared, an expression that has a type does not refer to it, unless it is in a recursive
binding of it. -/
theorem Infers.bare_eq_nil {s : Scopes} {e : Node} {t : Typing} (h : Infers s e t)
    (hs : ¬ s.Declares "_") : e.bare = [] := by
  induction h with
  | letIn _ _ ihv ihb =>
    have hb := ihb (not_declares_cons has_own_underscore hs)
    simpa [Node.bare, ihv (not_declares_cons rfl hs)] using hb
  | @letRec s pos x v b tv tb _ _ ihv ihb =>
    have hv := ihv (not_declares_cons has_own_underscore hs)
    rw [Node.bare, hv, List.nil_append]
    split
    next => rfl
    next hx =>
      have hne : x ≠ "_" := fun heq => hx ⟨rfl, heq⟩
      refine ihb (not_declares_cons ?_ hs)
      simpa [Bindings.has, Bindings.get?, hne] using has_own_underscore
  | cond _ _ _ _ ihc iht ihe => simp [Node.bare, ihc hs, iht hs, ihe hs]
  | matching _ hlen _ ihs ihcs =>
    rw [Node.bare, ihs hs, List.nil_append, Node.casesBare_eq_nil]
    intro c hc
    obtain ⟨t, hct⟩ := exists_mem_zip hlen hc
    exact ihcs _ hct (not_declares_cons (has_ofPattern_underscore c.1) hs)
  | lambda _ ih => exact ih (not_declares_cons has_own_underscore hs)
  | apply _ _ _ ihl ihr | applyUnknown _ _ _ ihl ihr => simp [Node.bare, ihl hs, ihr hs]
  | logical _ _ _ ihl ihr | floating _ _ _ ihl ihr | comparison _ _ _ ihl ihr | arithmetic _ _ _ ihl ihr =>
    simp [Node.bare, ihl hs, ihr hs]
  | floatSign _ ih | sign _ _ _ ih => exact ih hs
  | intLit | floatLit | stringLit | charLit => rfl
  | @ident s pos x t hx =>
    have hne : x ≠ "_" := by
      rintro rfl
      exact hs (Option.isSome_iff_exists.mpr ⟨t, hx⟩)
    rw [Node.bare, if_neg hne]

/-- A declaration that passes the analysis where `_` is not declared does not refer to it either, and does not
declare it. -/
theorem infer_bare {depth : Nat} {c c' : Context} {d : Node} {t : Typing} (hd : IsDeclaration d)
    (h : infer depth d c = .ok t c') (hs : ¬ c.scopes.Declares "_") :
    d.bare = [] ∧ ¬ c'.scopes.Declares "_" := by
  cases hd with
  | letDecl pos x hv =>
    obtain ⟨hv', hdeclare⟩ := infer_letDecl hv h
    exact ⟨hv'.bare_eq_nil hs, by rwa [Scopes.Declares, declare_underscore hdeclare]⟩
  | @funDecl pos f p ps b r hb =>
    obtain ⟨-, -, -, -, -, hdeclare⟩ := infer_funDecl hb h
    refine ⟨?_, by rwa [Scopes.Declares, declare_underscore hdeclare]⟩
    cases depth with
    | zero => cases h
    | succ depth =>
      obtain ⟨tb, c₁, c₂, hps, hbody, -, -⟩ := funDecl_eq_ok.mp h
      have hb' := (infer_sound depth hb _ _ _ hbody).1
      rw [Node.bare]
      split
      next => rfl
      next hf =>
        refine hb'.bare_eq_nil ?_
        rw [Scopes.Declares, params_underscore hps]
        refine not_declares_cons rfl (not_declares_cons ?_ hs)
        split
        next hr => simpa [Bindings.has, Bindings.get?] using fun heq => hf ⟨hr, heq⟩
        next => rfl
  | exprStmt pos he =>
    obtain ⟨he', hsame⟩ := infer_exprStmt he h
    exact ⟨he'.bare_eq_nil hs, hsame ▸ hs⟩

/-- So do declarations one after the other. -/
theorem declarations_bare {c : Context} {ds : List Node} {bs : List (String × Typing)}
    {ws : List (Located Warning)} (hds : ∀ d ∈ ds, IsDeclaration d) (hs : ¬ c.scopes.Declares "_")
    (h : Analysis.declarations analysisDepth c ds = .ok (bs, [], ws)) : ∀ d ∈ ds, d.bare = [] := by
  induction ds generalizing c bs with
  | nil => exact List.forall_mem_nil _
  | cons d ds ih =>
    obtain ⟨hd, hds⟩ := List.forall_mem_cons.mp hds
    obtain ⟨t, c', name, bs', hinfer, -, -, hrest⟩ := declarations_cons h
    obtain ⟨hbare, hs'⟩ := infer_bare hd hinfer hs
    exact List.forall_mem_cons.mpr ⟨hbare, ih hds hs' hrest⟩

/-! ## Sessions -/

/-- A session has no type for `_` until a declaration of it has a value. -/
theorem after_underscore {s : Session} {sources : List String} (hs : s.types.has "_" = false)
    (h : ∀ r, .ok r ∈ s.runs sources → Session.evaluated r "_" = false) :
    (s.after sources).types.has "_" = false := by
  induction sources generalizing s with
  | nil => exact hs
  | cons source sources ih =>
    refine ih ?_ fun r hr => h r (List.mem_cons_of_mem _ hr)
    obtain ⟨-, hsame⟩ | ⟨r, hr, habsorb, -⟩ := turn_cases s source
    · rw [hsame]
      exact hs
    · have hnot := h r (hr ▸ List.mem_cons_self ..)
      rw [habsorb, Bindings.has, (absorb_unevaluated hnot).1]
      exact hs

theorem not_declares_ofSeed {types : Frame} (h : types.has "_" = false) :
    ¬ (Scopes.ofSeed types).Declares "_" := by
  unfold Scopes.ofSeed
  split
  · exact not_declares_cons rfl nofun
  · exact not_declares_cons rfl (not_declares_cons h nofun)

/-- In a fresh interactive session, as long as no declaration of `_` has had a value in an earlier text, a
program that passes the analysis refers to `_` only where a recursive binding of it is known. -/
theorem underscore_undeclared (style : Emphasis) (options : Options) (sources : List String) (source : String)
    (p : Program) (a : Analysis) (hp : (parse source).program = some p)
    (hearlier : ∀ r, .ok r ∈ (Session.interactiveWith style options).runs sources →
      Session.evaluated r "_" = false)
    (ha : analyze p.body ((Session.interactiveWith style options).after sources).types = .ok a)
    (hok : a.ok = true) : ∀ d ∈ p.body, d.bare = [] := by
  obtain ⟨⟨bs, fs, ws⟩, hdecl, heq⟩ := except_bind_eq_ok.mp ha
  cases heq
  obtain rfl : fs = [] := List.isEmpty_iff.mp hok
  have htypes := after_underscore (s := .interactiveWith style options) rfl hearlier
  exact declarations_bare (parse_isDeclaration hp) (not_declares_ofSeed htypes) hdecl

/-- Parameters and patterns that are spelled `_`, after a recursive binding of it in an expression. -/
theorem underscore_undeclared_parameters :
    ∃ p a, (parse "let g _ = f 3;; match g 1 with _ -> 2;;").program = some p ∧
      analyze p.body ((Session.interactiveWith .plain {}).after
        ["let f _ = 1;;", "let rec _ = fun x -> x in _ 1;;"]).types = .ok a ∧
      a.ok = true ∧ ∀ d ∈ p.body, d.bare = [] := by
  have hearlier : (((Session.interactiveWith .plain {}).runs
      ["let f _ = 1;;", "let rec _ = fun x -> x in _ 1;;"]).all fun e =>
        e.toOption.all fun r => !Session.evaluated r "_") = true := by decide +kernel
  have hpassed : ((parse "let g _ = f 3;; match g 1 with _ -> 2;;").program.any fun p =>
      (analyze p.body ((Session.interactiveWith .plain {}).after
        ["let f _ = 1;;", "let rec _ = fun x -> x in _ 1;;"]).types).toOption.any Analysis.ok) = true := by
    decide +kernel
  obtain ⟨p, hp, hpassed⟩ := (Option.any_eq_true _ _).mp hpassed
  obtain ⟨a, ha, hok⟩ := (Option.any_eq_true _ _).mp hpassed
  have ha := toOption_eq_some.mp ha
  refine ⟨p, a, hp, ha, hok, underscore_undeclared .plain {} _ _ p a hp (fun r hr => ?_) ha hok⟩
  simpa [Except.toOption] using List.all_eq_true.mp hearlier _ hr

/-- With a recursive binding of `_`, an expression may refer to it. -/
theorem not_underscore_undeclared :
    ¬ ∀ (style : Emphasis) (options : Options) (sources : List String) (source : String) (p : Program)
      (a : Analysis), (parse source).program = some p →
      analyze p.body ((Session.interactiveWith style options).after sources).types = .ok a → a.ok = true →
      ∀ d ∈ p.body, "_" ∉ d.wanted := by
  intro h
  have hpassed : ((parse "let rec _ = fun x -> x in _ 1;;").program.any fun p =>
      (analyze p.body ((Session.interactiveWith .plain {}).after []).types).toOption.any fun a =>
        a.ok && p.body.any fun d => d.wanted.contains "_") = true := by decide +kernel
  obtain ⟨p, hp, hpassed⟩ := (Option.any_eq_true _ _).mp hpassed
  obtain ⟨a, ha, hpassed⟩ := (Option.any_eq_true _ _).mp hpassed
  obtain ⟨hok, hany⟩ := (Bool.and_eq_true _ _).mp hpassed
  obtain ⟨d, hd, hwanted⟩ := List.any_eq_true.mp hany
  exact h .plain {} [] _ p a hp (toOption_eq_some.mp ha) hok d hd (List.contains_iff_mem.mp hwanted)

end Camlet
