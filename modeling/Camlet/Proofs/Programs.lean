import Camlet.Proofs.Nesting
import Camlet.Proofs.Forms

/-
  Declarations and programs. Reading tokens gives no fault exactly when the tokens derive from the grammar,
  and then it gives the trees of the derivation.
-/

namespace Camlet

open Stateful

/-- A separator of declarations. -/
def isSeparator (t : Token) : Bool := t.isA .delimiter ";;"

/-- What must follow a declaration: separators, or else a `let` or nothing. -/
structure DeclarationEnd (seps rest : List Token) : Prop where
  separators : Phrase.Separators seps
  stops : Stops isSeparator rest
  follows : seps ≠ [] ∨ ∀ t ∈ rest.head?, t.isA .keyword "let" = true

theorem separators_nil : Phrase.Separators [] := by simp [Phrase.Separators]

theorem separators_cons {t : Token} {ts : List Token} :
    Phrase.Separators (t :: ts) ↔ isSeparator t = true ∧ Phrase.Separators ts := by
  simp [Phrase.Separators, isSeparator]

theorem dropWhile_separators {seps rest : List Token} (h : Phrase.Separators seps)
    (hs : Stops isSeparator rest) : (seps ++ rest).dropWhile isSeparator = rest := by
  rw [List.dropWhile_append_of_pos (p := isSeparator) h]
  cases rest with
  | nil => rfl
  | cons t rest => simp [stops_cons.mp hs]

theorem stops_dropWhile (p : Token → Bool) (ts : List Token) : Stops p (ts.dropWhile p) := by
  intro t ht
  have h := List.head?_dropWhile_not p ts
  rw [Option.mem_def.mp ht] at h
  exact h

theorem endDeclaration_eq_ok {ts rest : List Token} {u : Unit} :
    Grammar.endDeclaration ts = .ok u rest ↔ ∃ seps, ts = seps ++ rest ∧ DeclarationEnd seps rest := by
  rw [Grammar.endDeclaration, get_bind]
  cases ts with
  | nil =>
    constructor
    · intro h
      cases h
      exact ⟨[], rfl, separators_nil, stops_nil _, .inr (by simp)⟩
    · rintro ⟨seps, hts, -⟩
      obtain ⟨rfl, rfl⟩ := List.nil_eq_append_iff.mp hts
      rfl
  | cons t ts =>
    by_cases ht : isSeparator t = true
    · have ht' : t.isA .delimiter ";;" = true := ht
      simp only [ht', if_true, set_run]
      constructor
      · intro h
        cases h
        refine ⟨t :: ts.takeWhile isSeparator, ?_, separators_cons.mpr ⟨ht, ?_⟩,
          stops_dropWhile isSeparator ts, .inl nofun⟩
        · exact congrArg (t :: ·) List.takeWhile_append_dropWhile.symm
        · exact List.all_eq_true.mp List.all_takeWhile
      · rintro ⟨seps, hts, hseps, hstop, hfollow⟩
        cases seps with
        | nil =>
          rw [List.nil_append] at hts
          rw [← hts, stops_cons, ht] at hstop
          cases hstop
        | cons s seps =>
          obtain ⟨rfl, rfl⟩ : t = s ∧ ts = seps ++ rest := List.cons.inj hts
          exact congrArg _ (dropWhile_separators (separators_cons.mp hseps).2 hstop)
    · have ht' : t.isA .delimiter ";;" = false := by simpa [isSeparator] using ht
      simp only [ht']
      constructor
      · intro h
        by_cases hlet : t.isA .keyword "let" = true
        · simp only [hlet] at h
          cases h
          exact ⟨[], rfl, separators_nil, by simpa using ht, .inr (by simpa using hlet)⟩
        · simp only [hlet] at h
          exact absurd h fail_ne_ok
      · rintro ⟨seps, hts, hseps, hstop, hfollow⟩
        cases seps with
        | cons s seps =>
          obtain ⟨rfl, rfl⟩ : t = s ∧ ts = seps ++ rest := List.cons.inj hts
          exact absurd (separators_cons.mp hseps).1 ht
        | nil =>
          rw [List.nil_append] at hts
          subst hts
          have hlet : t.isA .keyword "let" = true := by simpa using hfollow
          simp only [hlet]
          rfl

/-! ## Declarations -/

section

variable {budget : Nat} {ts rest : List Token} {d : Node}

theorem recognizes_binding_parse (budget : Nat) :
    Recognizes (Grammar.binding (Nonterminal.parse budget)) (Phrase.Binding (Derives budget))
      (Nonterminal.goesOn .expression) :=
  recognizes_binding (recognizes_parse budget .bound trivial)

theorem recognizes_letIn_parse (budget : Nat) (pos : Pos) :
    Recognizes (Grammar.letIn (Nonterminal.parse budget) pos) (Phrase.LetIn (Derives budget) pos)
      (Nonterminal.goesOn .expression) :=
  recognizes_letIn (recognizes_parse budget .bound trivial) (recognizes_parse budget .expression trivial) pos

/-- Where a declaration may end, an expression does not go on. -/
theorem DeclarationEnd.stops_expression {seps : List Token} (h : DeclarationEnd seps rest) (loose : Bool) :
    Stops (Nonterminal.expression.goesOn loose) (seps ++ rest) := by
  cases seps with
  | cons s seps =>
    have hs : s.isA .delimiter ";;" = true := (separators_cons.mp h.separators).1
    rw [List.cons_append, stops_cons, goesOn_eq hs]
    cases loose <;> rfl
  | nil =>
    intro t ht
    have hlet := (h.follows.resolve_left (· rfl)) t ht
    rw [goesOn_eq hlet]
    cases loose <;> rfl

/-- Where a declaration may end, there is no `in`. -/
theorem DeclarationEnd.no_in {seps : List Token} (h : DeclarationEnd seps rest) :
    Stops (·.isA .keyword "in") (seps ++ rest) := by
  cases seps with
  | cons s seps =>
    have hs : s.isA .delimiter ";;" = true := (separators_cons.mp h.separators).1
    simp [Token.isA, (Token.isA_iff.mp hs).1]
  | nil =>
    intro t ht
    have hlet := (h.follows.resolve_left (· rfl)) t ht
    simp [Token.isA, (Token.isA_iff.mp hlet).2]

/-- What is read as a declaration is one, with what may follow it. -/
theorem declaration_phrase
    (hx : Grammar.declaration (Nonterminal.parse budget) ts = .ok d rest) :
    ∃ us seps, ts = us ++ seps ++ rest ∧ Phrase.Declaration (Derives budget) us d ∧
      DeclarationEnd seps rest := by
  rw [Grammar.declaration, get_bind] at hx
  cases ts with
  | nil => exact absurd hx fail_ne_ok
  | cons t ts =>
    by_cases ht : t.isA .keyword "let" = true
    · simp only [ht, if_true, Grammar.letDeclaration, bind_eq_ok, set_run] at hx
      obtain ⟨_, _, hset, b, r, hb, inside, s, ha, hx⟩ := hx
      cases hset
      obtain ⟨l, bs, rfl, hbs, -⟩ := (recognizes_binding_parse budget).phrase hb
      rcases accept_eq_ok.mp ha with ⟨rfl, i, rfl, hi⟩ | ⟨rfl, rfl, -⟩
      · simp only [if_true, bind_eq_ok, pure_run, endDeclaration_eq_ok] at hx
        obtain ⟨e, _, he, _, _, ⟨seps, rfl, hend⟩, hd⟩ := hx
        cases hd
        obtain ⟨loose, es, hus, hes, -⟩ :=
          (recognizes_parse budget .expression trivial).phrase he
        have hlet := Phrase.LetIn.mk hbs hi hes (Phrase.curried_curry t.pos _ _)
        exact ⟨t :: (bs ++ i :: es), seps, by simp [hus], .letIn ht hlet, hend⟩
      · simp only [Bool.false_eq_true, if_false, bind_eq_ok, pure_run, endDeclaration_eq_ok] at hx
        obtain ⟨_, _, ⟨seps, rfl, hend⟩, hd⟩ := hx
        cases hd
        exact ⟨t :: bs, seps, by simp, .binding ht hbs (Phrase.declares_iff.mpr rfl), hend⟩
    · rw [Bool.not_eq_true] at ht
      simp only [ht, Bool.false_eq_true, if_false, bind_eq_ok, pure_run, endDeclaration_eq_ok] at hx
      obtain ⟨e, _, he, _, _, ⟨seps, rfl, hend⟩, hd⟩ := hx
      cases hd
      obtain ⟨loose, es, hus, hes, -⟩ :=
        (recognizes_parse budget .expression trivial).phrase he
      obtain ⟨u, us, rfl, -⟩ := derives_opening _ _ _ _ _ hes
      obtain rfl : t = u := (List.cons.inj hus).1
      exact ⟨t :: us, seps, by simp [hus], .expression hes, hend⟩

/-- A local binding that is a declaration of its own is one for its value. -/
theorem letDeclaration_letIn {sub : Nonterminal → Parser Node} {pos : Pos} {s : List Token} {e : Node}
    (hx : Grammar.letIn sub pos ts = .ok e s) (hend : Grammar.endDeclaration s = .ok () rest) :
    Grammar.letDeclaration sub pos ts = .ok (.exprStmt pos e) rest := by
  simp only [Grammar.letIn, bind_eq_ok, expect_eq_ok, pure_run] at hx
  obtain ⟨b, _, hb, _, r, ⟨i, rfl, hi⟩, e', s', he, heq⟩ := hx
  cases heq
  rw [Grammar.letDeclaration, bind_ok hb, bind_ok (accept_true hi)]
  simp only [if_true]
  rw [bind_ok he, bind_ok hend]
  rfl

theorem declaration_let {sub : Nonterminal → Parser Node} {t : Token}
    (ht : t.isA .keyword "let" = true) :
    Grammar.declaration sub (t :: ts) = Grammar.letDeclaration sub t.pos ts := by
  rw [Grammar.declaration, get_bind]
  simp only [ht]
  rfl

theorem declaration_expression {sub : Nonterminal → Parser Node} {t : Token}
    (ht : t.isA .keyword "let" = false) :
    Grammar.declaration sub (t :: ts) =
      (sub .expression >>= fun e => Grammar.endDeclaration >>= fun _ => pure (.exprStmt t.pos e))
        (t :: ts) := by
  rw [Grammar.declaration, get_bind]
  simp only [ht]
  rfl

/-- A declaration is read, if it ends as declarations do. -/
theorem declaration_reads {us seps : List Token} (hd : Phrase.Declaration (Derives budget) us d)
    (hend : DeclarationEnd seps rest) :
    Grammar.declaration (Nonterminal.parse budget) (us ++ (seps ++ rest)) = .ok d rest := by
  have hread : Grammar.endDeclaration (seps ++ rest) = .ok () rest :=
    endDeclaration_eq_ok.mpr ⟨seps, rfl, hend⟩
  cases hd with
  | @binding loose t bs b d ht hb hdeclares =>
    obtain rfl := Phrase.declares_iff.mp hdeclares
    rw [List.cons_append, declaration_let ht, Grammar.letDeclaration,
      bind_ok ((recognizes_binding_parse budget).reads hb (hend.stops_expression loose)),
      bind_ok (accept_false hend.no_in)]
    simp only [Bool.false_eq_true, if_false]
    rw [bind_ok hread]
    rfl
  | @letIn loose t us e ht he =>
    rw [List.cons_append, declaration_let ht]
    exact letDeclaration_letIn
      ((recognizes_letIn_parse budget t.pos).reads he (hend.stops_expression loose)) hread
  | @expression loose t us e he =>
    have hparse := (recognizes_parse budget .expression trivial).reads he
      (hend.stops_expression loose)
    by_cases ht : t.isA .keyword "let" = true
    · -- the rule for declarations reads the local binding with one more of the budget
      rw [List.cons_append, declaration_let ht]
      cases budget with
      | zero => exact he.elim
      | succ n =>
        rw [Nonterminal.parse, List.cons_append, expression_form.1 ht] at hparse
        exact letDeclaration_letIn ((extends_letIn (extends_parse_succ n) t.pos).ok hparse) hread
    · rw [Bool.not_eq_true] at ht
      rw [List.cons_append, declaration_expression ht, ← List.cons_append, bind_ok hparse,
        bind_ok hread]
      rfl

theorem Phrase.Declaration.head {us : List Token} (hd : Phrase.Declaration (Derives budget) us d) :
    ∃ t vs, us = t :: vs ∧ isSeparator t = false := by
  cases hd with
  | binding ht => exact ⟨_, _, rfl, by simp [isSeparator, Token.isA, (Token.isA_iff.mp ht).1]⟩
  | letIn ht => exact ⟨_, _, rfl, by simp [isSeparator, Token.isA, (Token.isA_iff.mp ht).1]⟩
  | @expression _ t _ _ he =>
    obtain ⟨u, us, hus, hu⟩ := derives_opening _ _ _ _ _ he
    obtain rfl : t = u := (List.cons.inj hus).1
    refine ⟨_, _, rfl, ?_⟩
    cases hk : t.kind <;>
      simp_all [isSeparator, Token.isA, Nonterminal.opens, isSign, Grammar.startsPrimary]

end

/-! ## Programs -/

section

variable {budget : Nat}

theorem Phrase.Declarations.stops {ts : List Token} {ds : List Node}
    (h : Phrase.Declarations (Derives budget) ts ds) : Stops isSeparator ts := by
  cases h with
  | nil => exact stops_nil _
  | cons hd =>
    obtain ⟨t, vs, rfl, ht⟩ := hd.head
    exact stops_cons.mpr ht

theorem Phrase.Program.cons_separator {t : Token} {ts : List Token} {ds : List Node}
    (ht : isSeparator t = true) (h : Phrase.Program (Derives budget) ts ds) :
    Phrase.Program (Derives budget) (t :: ts) ds := by
  cases h with
  | @mk seps us _ hseps hd => exact .mk (separators_cons.mpr ⟨ht, hseps⟩) hd

theorem Phrase.Declarations.program {ts : List Token} {ds : List Node}
    (h : Phrase.Declarations (Derives budget) ts ds) : Phrase.Program (Derives budget) ts ds :=
  show Phrase.Program (Derives budget) ([] ++ ts) ds from .mk separators_nil h

/-- A program that starts with no separator is a list of declarations. -/
theorem Phrase.Program.declarations {ts : List Token} {ds : List Node}
    (h : Phrase.Program (Derives budget) ts ds) (hs : Stops isSeparator ts) :
    Phrase.Declarations (Derives budget) ts ds := by
  cases h with
  | @mk seps us _ hseps hd =>
    cases seps with
    | nil => exact hd
    | cons t seps =>
      rw [List.cons_append, stops_cons, (separators_cons.mp hseps).1] at hs
      cases hs

/-- Tokens that are read without a fault are a program. -/
theorem collect_phrase {stop : Pos} {fuel : Nat} {ts : List Token} {ds : List Node}
    (hf : ts.length ≤ fuel) (hx : Parsed.collect budget stop fuel ts = (ds, [])) :
    Phrase.Program (Derives budget) ts ds := by
  induction fuel generalizing ts ds with
  | zero =>
    cases List.eq_nil_of_length_eq_zero (Nat.le_zero.mp hf)
    cases hx
    exact Phrase.Declarations.nil.program
  | succ fuel ih =>
    cases ts with
    | nil =>
      cases hx
      exact Phrase.Declarations.nil.program
    | cons t ts =>
      rw [Parsed.collect] at hx
      by_cases ht : t.isA .delimiter ";;" = true
      · rw [if_pos ht] at hx
        exact (ih (Nat.le_of_succ_le_succ hf) hx).cons_separator ht
      · rw [if_neg ht] at hx
        cases hd : Grammar.declaration (Nonterminal.parse budget) (t :: ts) with
        | error e r => simp [hd] at hx
        | ok d rest =>
          simp only [hd, Prod.mk.injEq] at hx
          obtain ⟨hds, herrors⟩ := hx
          obtain ⟨us, seps, hts, hdecl, hend⟩ := declaration_phrase hd
          have hlen : rest.length ≤ fuel := by
            obtain ⟨u, vs, rfl, -⟩ := hdecl.head
            have := congrArg List.length hts
            simp at *
            omega
          have hrest := (ih hlen (Prod.ext rfl herrors)).declarations hend.stops
          have hall := Phrase.Declarations.cons hdecl hend.separators hend.follows hrest
          rw [hts, ← hds]
          exact hall.program

theorem collect_separators {stop : Pos} {fuel : Nat} {seps ts : List Token}
    (hseps : Phrase.Separators seps) (hf : (seps ++ ts).length ≤ fuel) :
    ∃ fuel', ts.length ≤ fuel' ∧
      Parsed.collect budget stop fuel (seps ++ ts) = Parsed.collect budget stop fuel' ts := by
  induction seps generalizing fuel with
  | nil => exact ⟨fuel, hf, rfl⟩
  | cons t seps ih =>
    obtain ⟨ht, hseps⟩ := separators_cons.mp hseps
    cases fuel with
    | zero => simp at hf
    | succ fuel =>
      obtain ⟨fuel', hf', heq⟩ := ih hseps (Nat.le_of_succ_le_succ hf)
      have ht' : t.isA .delimiter ";;" = true := ht
      refine ⟨fuel', hf', ?_⟩
      rw [List.cons_append, Parsed.collect, if_pos ht', heq]

/-- Declarations are read without a fault. -/
theorem collect_declarations {stop : Pos} {fuel : Nat} {ts : List Token} {ds : List Node}
    (h : Phrase.Declarations (Derives budget) ts ds) (hf : ts.length ≤ fuel) :
    Parsed.collect budget stop fuel ts = (ds, []) := by
  induction h generalizing fuel with
  | nil => cases fuel <;> rfl
  | @cons us seps rest d ds hd hseps hfollow hrest ih =>
    have hend : DeclarationEnd seps rest := ⟨hseps, hrest.stops, hfollow⟩
    have hread := declaration_reads hd hend
    obtain ⟨t, vs, rfl, ht⟩ := hd.head
    have ht' : t.isA .delimiter ";;" = false := ht
    cases fuel with
    | zero => simp at hf
    | succ fuel =>
      rw [List.cons_append] at hread
      rw [List.append_assoc, List.cons_append, Parsed.collect]
      have hlen : rest.length ≤ fuel := by
        simp at hf
        omega
      simp only [ht', hread, ih hlen]
      rfl

/-- Reading tokens gives declarations and no fault exactly if the tokens derive as a program of these
declarations. -/
theorem collect_eq_nil {stop : Pos} {fuel : Nat} {ts : List Token} {ds : List Node}
    (hf : ts.length ≤ fuel) :
    Parsed.collect budget stop fuel ts = (ds, []) ↔ Phrase.Program (Derives budget) ts ds := by
  refine ⟨collect_phrase hf, ?_⟩
  rintro ⟨hseps, hd⟩
  obtain ⟨fuel', hf', heq⟩ := collect_separators hseps hf
  rw [heq]
  exact collect_declarations hd hf'

/-- A larger budget changes nothing where no declaration stops for the nesting. -/
theorem collect_extends {larger : Nat} (h : budget ≤ larger) {stop : Pos} {fuel : Nat} {ts : List Token}
    (hdeep : ∀ f ∈ (Parsed.collect budget stop fuel ts).2, f.val ≠ .tooDeep) :
    Parsed.collect larger stop fuel ts = Parsed.collect budget stop fuel ts := by
  induction fuel generalizing ts with
  | zero => cases ts <;> rfl
  | succ fuel ih =>
    cases ts with
    | nil => rfl
    | cons t ts =>
      rw [Parsed.collect] at hdeep ⊢
      rw [Parsed.collect]
      by_cases ht : t.isA .delimiter ";;" = true
      · rw [if_pos ht] at hdeep ⊢
        rw [if_pos ht]
        exact ih hdeep
      · rw [if_neg ht] at hdeep ⊢
        rw [if_neg ht]
        have hext : Extends (Grammar.declaration (Nonterminal.parse budget))
            (Grammar.declaration (Nonterminal.parse larger)) :=
          extends_declaration (extends_parse h)
        rcases hext (t :: ts) with heq | ⟨_, rest, rfl, heq⟩
        · rw [heq]
          cases hd : Grammar.declaration (Nonterminal.parse budget) (t :: ts) with
          | ok d rest =>
            rw [hd] at hdeep
            dsimp only at hdeep ⊢
            rw [ih hdeep]
          | error e left =>
            rw [hd] at hdeep
            dsimp only at hdeep ⊢
            rw [ih fun f hf => hdeep f (List.mem_cons_of_mem _ hf)]
        · rw [heq] at hdeep
          exact absurd rfl (hdeep _ (List.mem_cons_self ..))

end

end Camlet
