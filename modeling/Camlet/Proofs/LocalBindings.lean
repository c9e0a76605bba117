import Camlet.Proofs.BindingTexts
import Camlet.Proofs.BindingValues
import Camlet.Proofs.Readback
import Camlet.Proofs.Successes

/-
  Bindings mean the same at the top and inside of an expression. The text `let f x = e in b;;` runs without an
  error if `let f x = e;; b;;` does, and the other way round, with the same type and the same value in the end,
  with parameters or without, recursive or not. This file composes what is known of the two texts stage by
  stage: they are read as two forms of one binding, of which the analysis and the evaluation give the same.

  Two differences remain. The local form nests deeper, by a level for each parameter, and may meet a limit of
  nesting where the other does not; then it is that fault which is reported. And a recursive function without
  parameters is taken apart at the top, so that those of nested functions come into one frame: from the local
  form to that at the top they must be distinct.
-/

namespace Camlet

open Stateful

/-! ## Runs of given declarations -/

/-- A text of declarations that succeed in empty surroundings is run without an error. -/
theorem run_of_declarations {source : String} {limit : Int} {ds : List Node} {bs : List (String × Typing)}
    {vs : List Result} {c : Context} {env : Env} (herrors : (parse source).errors = [])
    (hds : (parse source).declarations = ds) (hstarts : Starts limit)
    (h : Succeeds limit (frameBudget limit) ⟨[[]], []⟩ [] ds bs vs c env) :
    ∃ r, run source [] [] limit = .ok r ∧ r.ok = true ∧ r.results = vs ∧ r.bindings = bs := by
  have hsucceeds : Succeeds limit (frameBudget limit) ⟨.ofSeed [], []⟩ [] (parse source).declarations bs vs c
      env := hds ▸ h
  obtain ⟨r, hr, hok, hresults, hbindings, -⟩ := run_of_succeeds herrors (fun _ => hstarts) hsucceeds
  exact ⟨r, hr, hok, hresults, hbindings⟩

/-- A text that is read with faults is not run any further. -/
theorem run_unread {source : String} (herrors : (parse source).errors ≠ []) (limit : Int) :
    ∃ r, run source [] [] limit = .ok r ∧ r.syntaxErrors = (parse source).errors := by
  have hnot : accepted? source = none := by
    rw [accepted?, if_neg]
    rwa [List.isEmpty_iff]
  exact ⟨_, run_not_accepted hnot [] [] limit, rfl⟩

section

variable {source : String} {limit : Int} {d : Node} {t : Typing} {c : Context} {env : Env}
  (herrors : (parse source).errors = []) (hsingle : (parse source).declarations = [d])

include herrors hsingle

theorem accepted?_single : accepted? source = some ⟨d.pos, [d]⟩ := by
  rw [accepted?_eq herrors, hsingle]
  rfl

/-- A declaration that is nested too deeply for the analysis is reported. -/
theorem run_single_tooDeep (hinfer : infer analysisDepth d ⟨[[]], []⟩ = .error .tooDeep c) :
    ∃ r, run source [] [] limit = .ok r ∧ r.typeErrors = [⟨d.pos, .tooDeep⟩] := by
  have hanalysis : analyze [d] [] = .ok ⟨none, [], [⟨d.pos, .tooDeep⟩], c.warnings.reverse⟩ := by
    have hdeclarations : Analysis.declarations analysisDepth ⟨.ofSeed [], []⟩ [d] =
        .ok ([], [⟨d.pos, .tooDeep⟩], c.warnings) := by
      have hstart : (⟨.ofSeed [], []⟩ : Context) = ⟨[[]], []⟩ := rfl
      rw [hstart, Analysis.declarations, hinfer]
      rfl
    rw [analyze, analyzeWithin, hdeclarations]
    rfl
  exact ⟨_, run_accepted (accepted?_single herrors hsingle) hanalysis [] limit, rfl⟩

/-- A declaration that runs out of frames is reported. -/
theorem run_single_outOfFrames {x : String} (hstarts : Starts limit) (hname : d.name? = some x)
    (hinfer : infer analysisDepth d ⟨[[]], []⟩ = .ok t c)
    (heval : eval limit (frameBudget limit) 0 d [] = .error .outOfFrames env) :
    ∃ r, run source [] [] limit = .ok r ∧ r.runtimeErrors = [⟨d.pos, .stackOverflow x⟩] := by
  have hanalysis : analyze [d] [] = .ok ⟨t, [(x, t)], [], c.warnings.reverse⟩ := by
    have hdeclarations : Analysis.declarations analysisDepth ⟨.ofSeed [], []⟩ [d] =
        .ok ([(x, t)], [], c.warnings) := by
      have hstart : (⟨.ofSeed [], []⟩ : Context) = ⟨[[]], []⟩ := rfl
      simp only [hstart, Analysis.declarations, hinfer, hname]
      rfl
    rw [analyze, analyzeWithin, hdeclarations]
    rfl
  have hevaluated : evaluated limit (frameBudget limit) d [] = (.error .outOfFrames, env) := by
    rw [evaluated, heval]
  have hrun := run_accepted (accepted?_single herrors hsingle) hanalysis [] limit
  rw [hstarts, evaluateWithin_eq, hevaluated] at hrun
  simp only [Outcome.ofRun, Outcome.ofRun.named, hname] at hrun
  exact ⟨_, hrun, rfl⟩

end

/-! ## Both forms -/

/-- A run that met a limit of nesting, in reading, in the analysis or in evaluation. -/
def Run.NestedTooDeep (r : Run) : Prop :=
  (∃ f ∈ r.syntaxErrors, f.val = .tooDeep) ∨ (∃ f ∈ r.typeErrors, f.val = .tooDeep) ∨
    ∃ f ∈ r.runtimeErrors, ∃ x, f.val = .stackOverflow x

/-- Two runs without an error, the first of one declaration, the second of two, that end in the same: the type
of the only declaration and what is shown of it are those of the last. -/
structure Run.EndsLike (r r' : Run) : Prop where
  ok : r.ok = true
  ok' : r'.ok = true
  types : ∃ t first, r.bindings = [("-", t)] ∧ r'.bindings = [first, ("-", t)]
  results : ∃ v first w, r.results = [v] ∧ r'.results = [first, w] ∧ v.name = w.name ∧ v.text = w.text

/-- The parameters of the functions that a text starts with are distinct, but for `_`. -/
def ChainDistinct (e : String) : Prop :=
  ∀ pos x, (parse e).declarations = [.exprStmt pos x] → (x.uncurry.1.filter (· ≠ "_")).Nodup

theorem Declares.name? {pos : Pos} {r : Bool} {f : String} {v d : Node} (h : Declares pos r f v d) :
    d.name? = some f := by
  cases h <;> rfl

theorem Result.text_unplaced {x : String} {v w : Value} (h : v.unplaced = w.unplaced) :
    (⟨x, v⟩ : Result).text = (⟨x, w⟩ : Result).text := by
  simp only [Result.text, Value.unplaced_kind h, Value.unplaced_render h]

/-- The nesting of the analysis, but for that of a local binding as a declaration. -/
theorem exists_analysisDepth : ∃ depth, analysisDepth = depth + 2 := ⟨488, rfl⟩

namespace BothForms

variable {r : Bool} {f : String} {ps : List String} {x₀ b₀ x b b' : Node} (h : BothForms r ps x₀ b₀ x b b') (pos : Pos)

include h

theorem declares : Declares pos r f (.curry pos ps x) (Grammar.declarationOf pos ⟨r, f, ps, x⟩) :=
  declares_declarationOf pos f h.isLambda

theorem unplaced : b.unplaced = b'.unplaced := by
  obtain ⟨g, rfl⟩ := h.there
  exact (Node.unplaced_moved g b).symm

theorem distinctParams (hchain : r = true → ps = [] → (x₀.uncurry.1.filter (· ≠ "_")).Nodup) :
    (Grammar.declarationOf pos ⟨r, f, ps, x⟩).DistinctParams := by
  obtain ⟨g, rfl⟩ := h.bound
  refine distinctParams_declarationOf pos f h.distinct fun hr hps => ?_
  rw [Node.uncurry_moved]
  exact hchain hr hps

end BothForms

section

variable {limit : Int} {r : Bool} {f : String} {ps : List String} {e b : String} (hnames : Nameable f ps)
  (he : ExpressionText e) (hb : ExpressionText b)

include hnames he hb

/-- If the local form runs without an error, so does the form at the top. -/
theorem run_top_of_local (hchain : r = true → ps = [] → ChainDistinct e) {l : Run}
    (hrun : run (localText r f ps e b) [] [] limit = .ok l) (hok : l.ok = true) :
    ∃ t, run (topText r f ps e b) [] [] limit = .ok t ∧ l.EndsLike t := by
  obtain ⟨pos, x₀, hx₀⟩ := he.single
  obtain ⟨herrors, hstarts, c, hlocal⟩ := run_succeeds hrun hok
  obtain ⟨_, b₀, hb₀⟩ := hb.single
  have hreadable : Readable r f ps e x₀ := by
    by_contra hnot
    exact (parse_unreadable hnames he hb hx₀ r hnot).1 herrors
  obtain ⟨p, q, x, c₁, c₂, hforms, hread, hdecls₂, ⟨-, hdecls⟩ | ⟨fault, hfault, -⟩⟩ :=
    parse_readable hnames he hb hx₀ r hreadable hb₀
  · rw [hdecls] at hlocal hstarts
    generalize hbs : l.bindings = bs, hvs : l.results = vs at hlocal
    cases hlocal with
    | cons hinfer heval hname hrest =>
      cases hrest
      obtain rfl := Option.some.inj hname
      obtain ⟨depth, hdepth⟩ := exists_analysisDepth
      have hbound := hforms.value.curry p ps
      have hdeclares := hforms.declares p (f := f)
      have hdistinct := hforms.distinctParams p (f := f) fun hr hps => hchain hr hps pos x₀ hx₀
      rw [hdepth] at hinfer
      obtain ⟨tv, c₃, c₄, hinfer₁, hinfer₂⟩ :=
        infer_top_of_local hnames.named hbound hdeclares hforms.body hdistinct hforms.there hinfer
      rw [← hdepth] at hinfer₁ hinfer₂
      obtain ⟨u, env₁, w, env₂, heval₁, heval₂, hwv⟩ :=
        eval_top_of_local (q := q) hbound hdeclares hforms.unplaced heval
      have hsucceeds := Succeeds.cons hinfer₁ heval₁ hdeclares.name? (.cons hinfer₂ heval₂ rfl .nil)
      obtain ⟨t, ht, htok, htresults, htbindings⟩ :=
        run_of_declarations hread hdecls₂ (hstarts (List.cons_ne_nil _ _)) hsucceeds
      exact ⟨t, ht, hok, htok, ⟨_, _, hbs, htbindings⟩,
        ⟨_, _, _, hvs, htresults, rfl, Result.text_unplaced hwv.symm⟩⟩
  · rw [herrors] at hfault
    cases hfault

/-- If the form at the top runs without an error, so does the local form, unless it is nested too deeply. -/
theorem run_local_of_top {t : Run} (hrun : run (topText r f ps e b) [] [] limit = .ok t) (hok : t.ok = true) :
    ∃ l, run (localText r f ps e b) [] [] limit = .ok l ∧ (l.EndsLike t ∨ l.NestedTooDeep) := by
  obtain ⟨pos, x₀, hx₀⟩ := he.single
  obtain ⟨herrors, hstarts, c, htop⟩ := run_succeeds hrun hok
  obtain ⟨_, b₀, hb₀⟩ := hb.single
  have hreadable : Readable r f ps e x₀ := by
    by_contra hnot
    exact (parse_unreadable hnames he hb hx₀ r hnot).2 herrors
  obtain ⟨p, q, x, c₁, c₂, hforms, -, hdecls, ⟨hread, hsingle⟩ | ⟨fault, hfault, hdeep⟩⟩ :=
    parse_readable hnames he hb hx₀ r hreadable hb₀
  · rw [hdecls] at htop hstarts
    have hstarts := hstarts (List.cons_ne_nil _ _)
    generalize hbs : t.bindings = bs, hvs : t.results = vs at htop
    cases htop with
    | cons hinfer₁ heval₁ hname₁ hrest =>
      cases hrest with
      | cons hinfer₂ heval₂ hname₂ hrest =>
        cases hrest
        obtain rfl := Option.some.inj hname₂
        obtain ⟨depth, hdepth⟩ := exists_analysisDepth
        have hbound := hforms.value.curry p ps
        have hdeclares := hforms.declares p (f := f)
        rw [hdepth] at hinfer₁ hinfer₂
        rcases infer_local_of_top hnames.named hbound hdeclares hforms.body' hforms.back hinfer₁ hinfer₂ with
          ⟨c₃, hinfer⟩ | ⟨c₃, hinfer⟩
        · rw [← hdepth] at hinfer
          rcases eval_local_of_top hbound hdeclares hforms.unplaced heval₁ heval₂ with
            ⟨v, env, heval, hvw⟩ | ⟨env, heval⟩
          · obtain ⟨l, hl, hlok, hlresults, hlbindings⟩ :=
              run_of_declarations hread hsingle hstarts (.cons hinfer heval rfl .nil)
            exact ⟨l, hl, .inl ⟨hlok, hok, ⟨_, _, hlbindings, hbs⟩,
              ⟨_, _, _, hlresults, hvs, rfl, Result.text_unplaced hvw⟩⟩⟩
          · obtain ⟨l, hl, hlerrors⟩ := run_single_outOfFrames hread hsingle hstarts rfl hinfer heval
            have hmem : ⟨p, .stackOverflow "-"⟩ ∈ l.runtimeErrors := hlerrors ▸ List.mem_cons_self ..
            exact ⟨l, hl, .inr (.inr (.inr ⟨_, hmem, _, rfl⟩))⟩
        · rw [← hdepth] at hinfer
          obtain ⟨l, hl, hlerrors⟩ := run_single_tooDeep hread hsingle hinfer
          have hmem : ⟨p, .tooDeep⟩ ∈ l.typeErrors := hlerrors ▸ List.mem_cons_self ..
          exact ⟨l, hl, .inr (.inr (.inl ⟨_, hmem, rfl⟩))⟩
  · obtain ⟨l, hl, hlerrors⟩ := run_unread (List.ne_nil_of_mem hfault) limit
    exact ⟨l, hl, .inr (.inl ⟨fault, hlerrors ▸ hfault, hdeep⟩)⟩

/-- The local form of a function of too many parameters is never run: it is nested too deeply for the analysis,
if not for reading. -/
theorem local_tooDeep (hps : analysisDepth ≤ ps.length + 2) {l : Run}
    (hrun : run (localText r f ps e b) [] [] limit = .ok l) : l.ok = false := by
  by_contra hok
  rw [Bool.not_eq_false] at hok
  obtain ⟨pos, x₀, hx₀⟩ := he.single
  obtain ⟨_, b₀, hb₀⟩ := hb.single
  obtain ⟨herrors, -, c, hlocal⟩ := run_succeeds hrun hok
  have hreadable : Readable r f ps e x₀ := by
    by_contra hnot
    exact (parse_unreadable hnames he hb hx₀ r hnot).1 herrors
  obtain ⟨p, q, x, c₁, c₂, hforms, -, -, ⟨-, hdecls⟩ | ⟨fault, hfault, -⟩⟩ :=
    parse_readable hnames he hb hx₀ r hreadable hb₀
  · rw [hdecls] at hlocal
    generalize l.bindings = bs, l.results = vs at hlocal
    cases hlocal with
    | cons hinfer =>
      obtain ⟨depth, hdepth⟩ := exists_analysisDepth
      rw [hdepth, infer_local hnames.named (hforms.value.curry p ps)] at hinfer
      obtain ⟨c₃, hin, -⟩ := within_eq_ok.mp hinfer
      obtain ⟨tv, c₄, hvalue, -⟩ := bind_eq_ok.mp hin
      have hle : depth ≤ ps.length := by omega
      obtain ⟨c₅, hdeep⟩ := infer_curry_tooDeep hle x ⟨Frame.recursive r f :: [[]], []⟩
      rw [hdeep] at hvalue
      cases hvalue
  · rw [herrors] at hfault
    cases hfault

end

/-- Bindings mean the same at the top and inside of an expression. What runs without an error as
`let f x = e in b;;` does so as `let f x = e;; b;;`, if the functions that a recursive binding without parameters
starts with have distinct ones; and the other way round, unless the local form meets a limit of nesting. Then the
type and what is shown of the only declaration of the first are those of the last of the second. -/
theorem local_top {f : String} {ps : List String} {e b : String} (hnames : Nameable f ps)
    (he : ExpressionText e) (hb : ExpressionText b) (r : Bool) (limit : Int) :
    ((r = true → ps = [] → ChainDistinct e) → ∀ l, run (localText r f ps e b) [] [] limit = .ok l →
      l.ok = true → ∃ t, run (topText r f ps e b) [] [] limit = .ok t ∧ l.EndsLike t) ∧
    ∀ t, run (topText r f ps e b) [] [] limit = .ok t → t.ok = true →
      ∃ l, run (localText r f ps e b) [] [] limit = .ok l ∧ (l.EndsLike t ∨ l.NestedTooDeep) :=
  ⟨fun hchain _ => run_top_of_local hnames he hb hchain, fun _ => run_local_of_top hnames he hb⟩

/-- The factorial, with nothing in front of its `=` but its name. -/
theorem local_top_factorial :
    ∃ l t, run (localText true "fact" [] "fun n -> if n = 0 then 1 else n * fact (n - 1)" "fact 5") [] []
        defaultLimit = .ok l ∧
      run (topText true "fact" [] "fun n -> if n = 0 then 1 else n * fact (n - 1)" "fact 5") [] []
        defaultLimit = .ok t ∧
      l.EndsLike t ∧ l.results.map (·.text.toOption) = [some "- : Int = 120"] := by
  have hnames : Nameable "fact" [] := by decide
  have hvalue : ExpressionText "fun n -> if n = 0 then 1 else n * fact (n - 1)" := by decide +kernel
  have hbody : ExpressionText "fact 5" := by decide +kernel
  have hchain : ChainDistinct "fun n -> if n = 0 then 1 else n * fact (n - 1)" := by
    have hparams : (parse "fun n -> if n = 0 then 1 else n * fact (n - 1)").declarations.map
        (fun d => d.statement?.map fun x => x.uncurry.1) = [some ["n"]] := by decide +kernel
    intro pos x hx
    rw [hx] at hparams
    have hname : x.uncurry.1 = ["n"] := Option.some_inj.mp (List.cons.inj hparams).1
    rw [hname]
    decide
  have hrun : (run (localText true "fact" [] "fun n -> if n = 0 then 1 else n * fact (n - 1)" "fact 5") [] []
      defaultLimit).toOption.map (fun l => (l.ok, l.results.map (·.text.toOption))) =
      some (true, [some "- : Int = 120"]) := by decide +kernel
  obtain ⟨l, hl, hshown⟩ := Option.map_eq_some_iff.mp hrun
  obtain ⟨hok, htext⟩ := Prod.mk.inj hshown
  have hl := toOption_eq_some.mp hl
  obtain ⟨t, ht, hends⟩ :=
    (local_top hnames hvalue hbody true defaultLimit).1 (fun _ _ => hchain) l hl hok
  exact ⟨l, t, hl, ht, hends, htext⟩

/-! ## Functions of many parameters -/

/-- The names `p0`, `p1` and so on. -/
def numbered (n : Nat) : String := String.ofList ('p' :: Number.digits n)

theorem numbered_injective : Function.Injective numbered := by
  intro n m h
  exact digits_inj.mp (List.cons.inj (String.ofList_injective h)).2

theorem isIdentifier_numbered (n : Nat) : isIdentifier (numbered n) = true := by
  have hlist : (numbered n).toList = 'p' :: Number.digits n := String.toList_ofList
  have hword : isWord (numbered n) = true := by
    rw [isWord, hlist]
    simp only [Bool.and_eq_true, List.all_eq_true, List.forall_mem_cons]
    refine ⟨by decide, by decide, fun d hd => ?_⟩
    have hdigit : Text.isDigit d = true := toDigits_isDigit hd
    simp [Lexer.continuesWord, hdigit]
  have hwords : ∀ w ∈ keywords ++ operatorWords, w.toList.head? ≠ some 'p' := by decide
  have hnone : ∀ ws : List String, ws ⊆ keywords ++ operatorWords → ws.contains (numbered n) = false := by
    intro ws hws
    rw [List.contains_eq_mem, decide_eq_false_iff_not]
    intro hmem
    exact hwords _ (hws hmem) (by rw [hlist]; rfl)
  rw [isIdentifier, hword, Lexer.wordKind, hnone _ (List.subset_append_left ..),
    hnone _ (List.subset_append_right ..)]
  rfl

theorem nameable_numbered (n : Nat) : Nameable "f" ((List.range n).map numbered) := by
  refine ⟨by decide, by decide, fun p hp => ?_⟩
  obtain ⟨k, -, rfl⟩ := List.mem_map.mp hp
  refine ⟨isIdentifier_numbered k, fun hunderscore => ?_⟩
  have hlist := congrArg String.toList hunderscore
  rw [numbered, String.toList_ofList] at hlist
  exact absurd (List.cons.inj hlist).1 (by decide)

/-- A number on its own is an expression. -/
theorem expressionText_natural {n : Nat} (hn : (Number.digits n).length ≤ Number.maxDigits) :
    ExpressionText (Number.writeNat n) := by
  obtain ⟨herrors, pos, q, hdecls⟩ := parse_natural hn
  refine ⟨herrors, ⟨pos, _, hdecls⟩, ?_⟩
  obtain ⟨t, last, htok, ht, hlast⟩ := tokenize_word (isCut_int (n := n))
  have htok : tokenize (Number.writeNat n) = [t, last] := htok
  have hkind : t.kind = .int := congrArg Word.kind ht
  rw [htok]
  simp [isSeparator, Token.isA, hkind, hlast]

/-- Wherever it stands, it is one token. -/
theorem significant_natural (p : Pos) (n : Nat) :
    ∃ t, significant (Lexer.body p (Number.writeNat n).toList) = [t] ∧ t.word = ⟨.int, Number.writeNat n⟩ := by
  obtain ⟨t, last, htok, ht, -⟩ := tokenize_word (isCut_int (n := n))
  have htok : tokenize (Number.writeNat n) = [t] ++ [last] := htok
  rw [tokenize_eq_body] at htok
  have hbody : Lexer.body .first (Number.writeNat n).toList = [t] := (List.append_inj' htok rfl).1
  have hkind : t.kind = .int := congrArg Word.kind ht
  refine ⟨t.moved (Pos.first.shift p), ?_, ht⟩
  rw [significant_shift .first p, hbody]
  simp [significant, hkind]

/-- It can be bound to any name, as it takes little of the budget. -/
theorem readable_natural {f : String} {ps : List String} {pos q : Pos} {n : Nat}
    (hn : (Number.digits n).length ≤ Number.maxDigits)
    (hx₀ : (parse (Number.writeNat n)).declarations = [.exprStmt pos (.intLit q n)])
    (hps : (ps.filter (· ≠ "_")).Nodup) : Readable false f ps (Number.writeNat n) (.intLit q n) := by
  obtain ⟨-, m, l, -, hx⟩ := (expressionText_natural hn).derives hx₀ (bindingEnd false f ps)
  obtain ⟨t, ht, hword⟩ := significant_natural (bindingEnd false f ps) n
  have hprintable : Printable (.intLit {} n) := .intLit {} (Int.natCast_nonneg n) hn
  have hspells : Spells [t] (Node.intLit {} n).words := congrArg (fun w => [w]) hword
  have hheight : 979 ≥ 13 * (Node.intLit {} n).height := by simp [Node.height]
  obtain ⟨l', e', he', -⟩ := hprintable.readsAs 979 hheight [t] hspells
  rw [ht] at hx
  obtain rfl := derives_unique he' hx
  exact ⟨hps, ⟨l', ht ▸ derives_bound he'⟩, fun h => absurd h Bool.false_ne_true⟩

/-- At the top, a function may have any number of parameters. -/
theorem run_constant {f q : String} {qs : List String} {n m : Nat} (hnames : Nameable f (q :: qs))
    (hps : ((q :: qs).filter (· ≠ "_")).Nodup) (hn : (Number.digits n).length ≤ Number.maxDigits)
    (hm : (Number.digits m).length ≤ Number.maxDigits) :
    ∃ t, run (topText false f (q :: qs) (Number.writeNat n) (Number.writeNat m)) [] [] defaultLimit = .ok t ∧
      t.ok = true := by
  have htext := expressionText_natural hn
  obtain ⟨-, pos, at₁, hdecl⟩ := parse_natural hn
  obtain ⟨-, pos', at₂, hdecl'⟩ := parse_natural hm
  obtain ⟨p, p', x, c, c', hforms, hread, hdecls, -⟩ :=
    parse_readable hnames htext (expressionText_natural hm) hdecl false (readable_natural hn hdecl hps) hdecl'
  obtain ⟨g, rfl⟩ := hforms.bound
  obtain ⟨g', rfl⟩ := hforms.behind
  obtain ⟨depth, hdepth⟩ := exists_analysisDepth
  have hliteral : ∀ c : Context, infer (depth + 1) (.intLit (g at₁) n) c = .ok (some .int) c := fun _ => rfl
  have hfirst := infer_function (r := false) hnames.named p (.intLit (g at₁) n) hps (hliteral _)
  rw [← hdepth] at hfirst
  obtain ⟨k, hk⟩ : ∃ k, frameBudget defaultLimit = k + 6 := ⟨10984, frameBudget_defaultLimit⟩
  have hsucceeds : Succeeds defaultLimit (k + 6) ⟨[[]], []⟩ []
      [.funDecl p f (q :: qs) (.intLit (g at₁) n) false, .exprStmt p' (.intLit (g' at₂) m)] _ _ _ _ :=
    .cons hfirst rfl rfl (.cons (t := some .int) (by rw [hdepth]; rfl) rfl rfl .nil)
  rw [← hk] at hsucceeds
  obtain ⟨t, ht, hok, -⟩ := run_of_declarations hread hdecls starts_defaultLimit hsucceeds
  exact ⟨t, ht, hok⟩

/-- A function of three thousand parameters runs at the top, but not in the local form. -/
theorem not_local_iff_top :
    ¬ ∀ (r : Bool) (f : String) (ps : List String) (e b : String), Nameable f ps → ExpressionText e →
      ExpressionText b →
      ((∃ l, run (localText r f ps e b) [] [] defaultLimit = .ok l ∧ l.ok = true) ↔
        ∃ t, run (topText r f ps e b) [] [] defaultLimit = .ok t ∧ t.ok = true) := by
  intro h
  have hone : (Number.digits 1).length ≤ Number.maxDigits := by decide
  have htext := expressionText_natural hone
  have hnames := nameable_numbered 3000
  have hnodup : ((List.range 3000).map numbered).Nodup := List.nodup_range.map numbered_injective
  have hcons : (List.range 3000).map numbered = numbered 0 :: ((List.range 2999).map fun n => numbered (n + 1)) := by
    rw [List.range_succ_eq_map, List.map_cons, List.map_map]
    rfl
  have htop : ∃ t, run (topText false "f" ((List.range 3000).map numbered) (Number.writeNat 1)
      (Number.writeNat 1)) [] [] defaultLimit = .ok t ∧ t.ok = true := by
    rw [hcons] at hnames hnodup ⊢
    exact run_constant hnames (hnodup.filter _) hone hone
  obtain ⟨l, hl, hok⟩ := (h false "f" _ _ _ hnames htext htext).mpr htop
  have hlong : analysisDepth ≤ ((List.range 3000).map numbered).length + 2 := by
    rw [List.length_map, List.length_range]
    decide
  rw [local_tooDeep hnames htext htext hlong hl] at hok
  cases hok

end Camlet
