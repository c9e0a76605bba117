import Camlet.Proofs.Operators

/-
  The forms that start with a keyword, and the parser as a whole. Each form ends in an expression, so it
  goes on as far as that does; an expression in front of a keyword or a bar must stop there, which it
  does because no phrase goes on with a keyword, and only a loose one with a bar. With the rules for
  operators this gives the parser of every rule, by induction on the budget.
-/

namespace Camlet

open Grammar (startsPrimary isOperator)
open Stateful

/-! ## Bindings, conditionals and functions -/

section Rules

variable {sub : Nonterminal → Parser Node} {L : Nonterminal → Language Node}

/-- What a binding reads, up to its expression. -/
theorem binding_eq_ok {ts rest : List Token} {b : Binding} :
    Grammar.binding sub ts = .ok b rest ↔
      ∃ recursive s, Parser.accept .keyword "rec" ts = .ok recursive s ∧
        ∃ name ps eq r v, s = name :: ps ++ eq :: r ∧ name.kind = .identifier ∧ Phrase.Params ps ∧
          eq.isA .operator "=" = true ∧ sub .bound r = .ok v rest ∧
          (recursive = true → ps = [] → v.isLambda = true) ∧
          b = ⟨recursive, name.lexeme, ps.map (·.lexeme), v⟩ := by
  rw [Grammar.binding, bind_eq_ok]
  refine exists_congr fun recursive => exists_congr fun s => and_congr_right fun _ => ?_
  rw [get_bind]
  cases s with
  | nil => exact ⟨fun h => absurd h fail_ne_ok, by simp⟩
  | cons name s =>
    by_cases hk : name.kind = .identifier
    · simp only [hk, if_true, bind_eq_ok, set_run, params_eq_ok, expect_eq_ok]
      constructor
      · rintro ⟨_, _, hset, names, _, ⟨ps, hs, rfl, hps, -⟩, _, r, ⟨eq, rfl, heq⟩, v, r', hv, hb⟩
        cases hset
        subst hs
        by_cases hl : (recursive && (ps.map (·.lexeme)).isEmpty && !v.isLambda) = true
        · rw [if_pos hl] at hb
          cases hb
        · rw [if_neg hl] at hb
          cases hb
          refine ⟨name, ps, eq, r, v, rfl, hk, hps, heq, hv, ?_, rfl⟩
          rintro rfl rfl
          simpa using hl
      · rintro ⟨name', ps, eq, r, v, hs, -, hps, heq, hv, hl, rfl⟩
        obtain ⟨rfl, rfl⟩ : name = name' ∧ s = ps ++ eq :: r := List.cons.inj hs
        have hstop : Stops isName (eq :: r) := by
          simp [isName, (Token.isA_iff.mp heq).1]
        refine ⟨_, _, rfl, _, _, ⟨ps, rfl, rfl, hps, hstop⟩, (), r, ⟨eq, rfl, heq⟩, v, rest, hv, ?_⟩
        rw [if_neg]
        · rfl
        · simp only [Bool.and_eq_true, List.isEmpty_iff, List.map_eq_nil_iff, Bool.not_eq_true']
          rintro ⟨⟨hr, hp⟩, hv'⟩
          rw [hl hr hp] at hv'
          cases hv'
    · simp only [hk, if_false]
      constructor
      · exact fun h => absurd h fail_ne_ok
      · rintro ⟨name', ps, eq, r, v, hs, hk', -⟩
        obtain ⟨rfl, rfl⟩ : name = name' ∧ s = ps ++ eq :: r := List.cons.inj hs
        exact absurd hk' hk

section

variable (h : Recognizes (sub .bound) (L .bound) (Nonterminal.goesOn .bound))

include h

theorem recognizes_binding :
    Recognizes (Grammar.binding sub) (Phrase.Binding L) (Nonterminal.goesOn .bound) := by
  intro ts b rest
  rw [binding_eq_ok]
  constructor
  · rintro ⟨recursive, s, ha, name, ps, eq, r, v, rfl, hk, hps, heq, hv, hl, rfl⟩
    obtain ⟨loose, vs, rfl, hd, hs⟩ := h.phrase hv
    rcases accept_eq_ok.mp ha with ⟨rfl, t, rfl, ht⟩ | ⟨rfl, rfl, -⟩
    · exact ⟨loose, _, by simp, .recursive ht hk hps heq hd fun hnil => Node.isLambda_iff.mp (hl rfl hnil), hs⟩
    · exact ⟨loose, _, by simp, .plain hk hps heq hd, hs⟩
  · rintro ⟨loose, used, rfl, hd, hs⟩
    cases hd with
    | @plain _ name eq ps vs v hk hps heq hd =>
      have hrec : Stops (·.isA .keyword "rec") (name :: ps ++ eq :: vs ++ rest) := by
        simp [Token.isA, hk]
      exact ⟨false, _, accept_false hrec, name, ps, eq, vs ++ rest, v, by simp, hk, hps, heq,
        h.reads hd hs, fun hf => absurd hf Bool.false_ne_true, rfl⟩
    | @recursive _ r name eq ps vs v hr hk hps heq hd hl =>
      exact ⟨true, _, accept_true hr, name, ps, eq, vs ++ rest, v, by simp, hk, hps, heq,
        h.reads hd hs, fun _ hnil => Node.isLambda_iff.mpr (hl hnil), rfl⟩

end

variable (hbound : Recognizes (sub .bound) (L .bound) (Nonterminal.goesOn .bound))
  (h : Recognizes (sub .expression) (L .expression) (Nonterminal.goesOn .expression))

include h

include hbound in
theorem recognizes_letIn (pos : Pos) :
    Recognizes (Grammar.letIn sub pos) (Phrase.LetIn L pos) (Nonterminal.goesOn .expression) := by
  have hbinding := recognizes_binding hbound
  intro ts e rest
  simp only [Grammar.letIn, bind_eq_ok, expect_eq_ok, pure_run]
  constructor
  · rintro ⟨b, _, hb, _, r, ⟨i, rfl, hi⟩, e', r', he, heq⟩
    cases heq
    obtain ⟨l, bs, rfl, hbs, -⟩ := hbinding.phrase hb
    obtain ⟨loose, es, rfl, hes, hs⟩ := h.phrase he
    exact ⟨loose, _, by simp, .mk hbs hi hes (Phrase.curried_curry ..), hs⟩
  · rintro ⟨loose, used, rfl, hd, hs⟩
    cases hd with
    | @mk l _ i bs es b v e hb hi he hcurried =>
      obtain rfl := hcurried.eq_curry
      have hin : Stops (Nonterminal.expression.goesOn l) (i :: (es ++ rest)) := by
        rw [stops_cons, goesOn_eq hi]; cases l <;> rfl
      refine ⟨b, _, ?_, (), _, ⟨i, rfl, hi⟩, e, rest, h.reads he hs, rfl⟩
      simpa using hbinding.reads hb hin

theorem recognizes_cond (pos : Pos) :
    Recognizes (Grammar.cond sub pos) (Phrase.Cond L pos) (Nonterminal.goesOn .expression) := by
  intro ts e rest
  simp only [Grammar.cond, bind_eq_ok, expect_eq_ok, pure_run]
  constructor
  · rintro ⟨c, _, hc, _, r, ⟨t, rfl, ht⟩, a, _, ha, _, r', ⟨e, rfl, he⟩, b, _, hb, heq⟩
    cases heq
    obtain ⟨l₁, cs, rfl, hcs, -⟩ := h.phrase hc
    obtain ⟨l₂, as, rfl, has, -⟩ := h.phrase ha
    obtain ⟨loose, bs, rfl, hbs, hs⟩ := h.phrase hb
    exact ⟨loose, cs ++ t :: as ++ e :: bs, by simp, .mk hcs ht has he hbs, hs⟩
  · rintro ⟨loose, used, rfl, hd, hs⟩
    cases hd with
    | @mk l₁ l₂ _ t e cs ts es c a b hc ht ha he hb =>
      have hthen (us : List Token) : Stops (Nonterminal.expression.goesOn l₁) (t :: us) := by
        rw [stops_cons, goesOn_eq ht]; cases l₁ <;> rfl
      have helse (us : List Token) : Stops (Nonterminal.expression.goesOn l₂) (e :: us) := by
        rw [stops_cons, goesOn_eq he]; cases l₂ <;> rfl
      refine ⟨c, t :: (ts ++ e :: (es ++ rest)), ?_, (), _, ⟨t, rfl, ht⟩, a, _,
        h.reads ha (helse (es ++ rest)), (), _, ⟨e, rfl, he⟩, b, rest, h.reads hb hs, rfl⟩
      simpa using h.reads hc (hthen (ts ++ e :: (es ++ rest)))

theorem recognizes_lambda (pos : Pos) :
    Recognizes (Grammar.lambda sub pos) (Phrase.Lambda L pos) (Nonterminal.goesOn .expression) := by
  intro ts e rest
  simp only [Grammar.lambda, bind_eq_ok, params_eq_ok]
  constructor
  · rintro ⟨_, _, ⟨ps, rfl, rfl, hps, -⟩, hrest⟩
    by_cases hne : ps = []
    · subst hne
      obtain ⟨_, _, hfail, -⟩ := bind_eq_ok.mp hrest
      exact absurd hfail fail_ne_ok
    · have hne' : ((ps.map (·.lexeme)).isEmpty = true) = False := by simpa using hne
      simp only [hne', if_false, bind_eq_ok, expect_eq_ok, pure_run] at hrest
      obtain ⟨_, _, ⟨arrow, rfl, harrow⟩, e', _, he, heq⟩ := hrest
      cases heq
      obtain ⟨loose, es, rfl, hes, hs⟩ := h.phrase he
      have hlambda := Phrase.Lambda.mk hne hps harrow hes (Phrase.curried_curry pos _ _)
      exact ⟨loose, ps ++ arrow :: es, by simp, hlambda, hs⟩
  · rintro ⟨loose, used, rfl, hd, hs⟩
    cases hd with
    | @mk _ arrow ps es e f hne hps harrow he hcurried =>
      obtain rfl := hcurried.eq_curry
      have hname : Stops isName (arrow :: (es ++ rest)) := by
        simp [isName, (Token.isA_iff.mp harrow).1]
      have hne' : ((ps.map (·.lexeme)).isEmpty = true) = False := by simpa using hne
      refine ⟨_, arrow :: (es ++ rest), ⟨ps, by simp, rfl, hps, hname⟩, ?_⟩
      simp only [hne', if_false, bind_eq_ok, expect_eq_ok, pure_run]
      exact ⟨(), _, ⟨arrow, rfl, harrow⟩, e, rest, h.reads he hs, rfl⟩

omit h in
theorem pattern_eq_ok {ts rest : List Token} {p : Node} :
    Grammar.pattern ts = .ok p rest ↔ ∃ t, ts = t :: rest ∧ Phrase.Pattern t p := by
  rw [Grammar.pattern, get_bind]
  cases ts with
  | nil => exact ⟨fun h => absurd h fail_ne_ok, by simp⟩
  | cons t ts =>
    by_cases hk : t.kind = .identifier
    · simp only [hk, if_true, bind_eq_ok, set_run, pure_run]
      constructor
      · rintro ⟨_, _, hset, hp⟩
        cases hset
        by_cases hw : t.lexeme = "_"
        · simp only [hw, if_true] at hp
          cases hp
          exact ⟨t, rfl, .wildcard hk hw⟩
        · simp only [hw, if_false] at hp
          cases hp
          exact ⟨t, rfl, .bind hk hw⟩
      · rintro ⟨t', hts, hp⟩
        obtain ⟨rfl, rfl⟩ : t = t' ∧ ts = rest := List.cons.inj hts
        refine ⟨_, _, rfl, ?_⟩
        cases hp with
        | wildcard _ hw => simp [hw]
        | bind _ hw => simp [hw]
    · simp only [hk, if_false]
      constructor
      · exact fun h => absurd h fail_ne_ok
      · rintro ⟨t', hts, hp⟩
        obtain ⟨rfl, -⟩ : t = t' ∧ ts = rest := List.cons.inj hts
        cases hp <;> exact absurd ‹_› hk

theorem recognizes_case :
    Recognizes (Grammar.case sub) (Phrase.Case L) (Nonterminal.goesOn .expression) := by
  intro ts c rest
  simp only [Grammar.case, bind_eq_ok, expect_eq_ok, pattern_eq_ok, pure_run]
  constructor
  · rintro ⟨_, _, ⟨bar, rfl, hbar⟩, p, _, ⟨t, rfl, hp⟩, _, _, ⟨arrow, rfl, harrow⟩, e, _, he, heq⟩
    cases heq
    obtain ⟨loose, es, rfl, hes, hs⟩ := h.phrase he
    exact ⟨loose, bar :: t :: arrow :: es, by simp, .mk hbar hp harrow hes, hs⟩
  · rintro ⟨loose, used, rfl, hd, hs⟩
    cases hd with
    | @mk _ bar t arrow es p e hbar hp harrow he =>
      exact ⟨(), _, ⟨bar, rfl, hbar⟩, p, _, ⟨t, rfl, hp⟩, (), _, ⟨arrow, rfl, harrow⟩, e, rest,
        h.reads he hs, rfl⟩

omit h

/-- A phrase goes on with a bar only if it is loose. -/
theorem goesOn_expression {loose : Bool} {t : Token} :
    Nonterminal.expression.goesOn loose t = true ↔
      Nonterminal.expression.goesOn false t = true ∨ loose = true ∧ isBar t = true := by
  simp [Nonterminal.goesOn]

theorem stops_expression (loose : Bool) {rest : List Token} :
    Stops (Nonterminal.expression.goesOn true) rest ↔
      Stops (Nonterminal.expression.goesOn loose) rest ∧ Stops isBar rest := by
  cases rest with
  | nil => simp
  | cons t rest => cases loose <;> simp [Nonterminal.goesOn]

theorem Phrase.Cases.head {us : List Token} {cs : List (Node × Node)} (hcs : Phrase.Cases L us cs) :
    ∃ t vs, us = t :: vs ∧ isBar t = true := by
  cases hcs with
  | last hc => cases hc with | mk hbar => exact ⟨_, _, rfl, hbar⟩
  | more hc => cases hc with | mk hbar => exact ⟨_, _, rfl, hbar⟩

/-- A case and what is read as further cases behind it, if anything is, are cases together. -/
theorem Phrase.Cases.cons {loose : Bool} {us r rest : List Token} {c : Node × Node}
    {cs : List (Node × Node)} (hc : Phrase.Case L loose us c)
    (hs : Stops (Nonterminal.expression.goesOn loose) r)
    (hcs : (cs = [] ∧ r = rest ∧ Stops isBar rest) ∨
      ∃ vs, r = vs ++ rest ∧ Phrase.Cases L vs cs ∧ Stops (Nonterminal.expression.goesOn true) rest) :
    ∃ ws, us ++ r = ws ++ rest ∧ Phrase.Cases L ws (c :: cs) ∧
      Stops (Nonterminal.expression.goesOn true) rest := by
  rcases hcs with ⟨rfl, rfl, hbar⟩ | ⟨vs, rfl, hvs, hs'⟩
  · exact ⟨us, rfl, .last hc, (stops_expression _).mpr ⟨hs, hbar⟩⟩
  · -- a bar follows, so the case is not loose
    obtain ⟨v, vs', rfl, hv⟩ := hvs.head
    have hl : loose = false := by
      cases loose with
      | false => rfl
      | true =>
        rw [List.cons_append, stops_cons, goesOn_expression.mpr (.inr ⟨rfl, hv⟩)] at hs
        cases hs
    subst hl
    exact ⟨us ++ v :: vs', by simp, .more hc hvs, hs'⟩

include h

/-- What is read as further cases, if anything is, are cases. -/
theorem cases_phrase {bound ts rest : List Token} {cs : List (Node × Node)}
    (hb : ts.length ≤ bound.length) (hx : Grammar.cases sub bound ts = .ok cs rest) :
    (cs = [] ∧ ts = rest ∧ Stops isBar rest) ∨
      ∃ us, ts = us ++ rest ∧ Phrase.Cases L us cs ∧ Stops (Nonterminal.expression.goesOn true) rest := by
  induction bound generalizing ts cs with
  | nil =>
    cases List.eq_nil_of_length_eq_zero (Nat.le_zero.mp hb)
    cases hx
    exact .inl ⟨rfl, rfl, stops_nil _⟩
  | cons b bound ih =>
    rw [Grammar.cases, get_bind] at hx
    cases ts with
    | nil =>
      cases hx
      exact .inl ⟨rfl, rfl, stops_nil _⟩
    | cons t ts =>
      by_cases ht : t.isA .delimiter "|" = true
      · simp only [ht, if_true, bind_eq_ok, pure_run] at hx
        obtain ⟨c, r, hc, cs', _, hcs, heq⟩ := hx
        cases heq
        obtain ⟨loose, us, hus, hcase, hs⟩ := (recognizes_case h).phrase hc
        have hlen : r.length ≤ bound.length := by
          have hne : 0 < us.length := by cases hcase; simp
          have := congrArg List.length hus
          simp at *
          omega
        obtain ⟨ws, hws, hcs', hs'⟩ := Phrase.Cases.cons hcase hs (ih hlen hcs)
        exact .inr ⟨ws, hus.trans hws, hcs', hs'⟩
      · simp only [ht] at hx
        cases hx
        exact .inl ⟨rfl, rfl, by simpa [isBar] using ht⟩

omit h in
theorem cases_none {bound rest : List Token} (hs : Stops isBar rest) :
    Grammar.cases sub bound rest = .ok [] rest := by
  cases bound with
  | nil => rfl
  | cons b bound =>
    rw [Grammar.cases, get_bind]
    cases rest with
    | nil => rfl
    | cons t rest =>
      have ht : t.isA .delimiter "|" = false := stops_cons.mp hs
      simp only [ht]
      rfl

/-- Of cases the first is read as one, and the others as further ones. -/
theorem cases_reads {us rest : List Token} {cs : List (Node × Node)} (hcs : Phrase.Cases L us cs)
    (hs : Stops (Nonterminal.expression.goesOn true) rest) :
    ∃ c cs' r, cs = c :: cs' ∧ Grammar.case sub (us ++ rest) = .ok c r ∧
      ∀ bound : List Token, r.length ≤ bound.length → Grammar.cases sub bound r = .ok cs' rest := by
  induction hcs with
  | @last loose ts c hc =>
    have hstops := (stops_expression loose).mp hs
    exact ⟨c, [], rest, rfl, (recognizes_case h).reads hc hstops.1, fun _ _ => cases_none hstops.2⟩
  | @more ts us c cs hc hcs ih =>
    obtain ⟨c', cs', r, rfl, hc', hcs'⟩ := ih
    obtain ⟨u, ws, rfl, hu⟩ := hcs.head
    have hbar : Stops (Nonterminal.expression.goesOn false) (u :: ws ++ rest) := by
      rw [List.cons_append, stops_cons, goesOn_eq hu]; rfl
    refine ⟨c, c' :: cs', u :: ws ++ rest, rfl, ?_, ?_⟩
    · rw [List.append_assoc]
      exact (recognizes_case h).reads hc hbar
    · intro bound hb
      cases bound with
      | nil => simp at hb
      | cons b bound =>
        have hlen : r.length ≤ bound.length := by
          obtain ⟨_, vs, hvs, hcase, -⟩ := (recognizes_case h).phrase hc'
          have hne : 0 < vs.length := by cases hcase; simp
          have := congrArg List.length hvs
          simp at *
          omega
        have hu' : u.isA .delimiter "|" = true := hu
        rw [List.cons_append] at hc' ⊢
        rw [Grammar.cases, get_bind]
        simp only [hu', if_true]
        rw [bind_ok hc', bind_ok (hcs' bound hlen)]
        rfl

theorem recognizes_matching (pos : Pos) :
    Recognizes (Grammar.matching sub pos) (Phrase.Matching L pos)
      (Nonterminal.goesOn .expression) := by
  intro ts e rest
  simp only [Grammar.matching, bind_eq_ok, expect_eq_ok, get_bind, pure_run]
  constructor
  · rintro ⟨s, _, hs, _, _, ⟨w, rfl, hw⟩, c, r, hc, cs, _, hcs, heq⟩
    cases heq
    obtain ⟨l, ss, rfl, hss, -⟩ := h.phrase hs
    obtain ⟨loose, us, rfl, hus, hstop⟩ := (recognizes_case h).phrase hc
    obtain ⟨ws, hws, hcs', hstop'⟩ :=
      Phrase.Cases.cons hus hstop (cases_phrase h (Nat.le_refl _) hcs)
    exact ⟨true, ss ++ w :: ws, by simp [hws], .mk hss hw hcs', hstop'⟩
  · rintro ⟨loose, used, rfl, hd, hstop⟩
    cases hd with
    | @mk l w ss us s cases hss hw hus =>
      have hwith (vs : List Token) : Stops (Nonterminal.expression.goesOn l) (w :: vs) := by
        rw [stops_cons, goesOn_eq hw]; cases l <;> rfl
      obtain ⟨c, cs, r, rfl, hc, hcs⟩ := cases_reads h hus hstop
      refine ⟨s, w :: (us ++ rest), ?_, (), _, ⟨w, rfl, hw⟩, c, r, hc, cs, rest, hcs r (Nat.le_refl _),
        rfl⟩
      simpa using h.reads hss (hwith (us ++ rest))

omit h

/-- The words that start an expression of their own. -/
def isForm (t : Token) : Bool :=
  t.isA .keyword "let" || t.isA .keyword "if" || t.isA .keyword "fun" || t.isA .keyword "match"

/-- A phrase of operators starts with none of them. -/
theorem not_isForm {t : Token} {levels : List (List String)}
    (ht : (Nonterminal.level levels).opens t = true) : isForm t = false := by
  cases hk : t.kind <;>
    simp_all [isForm, Token.isA, Nonterminal.opens, isSign, startsPrimary]

theorem expression_level {ts : List Token} (hts : Stops isForm ts) :
    Grammar.expression sub ts = sub (.level operatorLevels) ts := by
  rw [Grammar.expression, get_bind]
  cases ts with
  | nil => rfl
  | cons t ts =>
    simp only [stops_cons, isForm, Bool.or_eq_false_iff] at hts
    simp only [hts]
    rfl

/-- A form behind its keyword is read by its own rule. -/
theorem expression_form {t : Token} {ts : List Token} :
    (t.isA .keyword "let" = true → Grammar.expression sub (t :: ts) = Grammar.letIn sub t.pos ts) ∧
    (t.isA .keyword "if" = true → Grammar.expression sub (t :: ts) = Grammar.cond sub t.pos ts) ∧
    (t.isA .keyword "fun" = true → Grammar.expression sub (t :: ts) = Grammar.lambda sub t.pos ts) ∧
    (t.isA .keyword "match" = true →
      Grammar.expression sub (t :: ts) = Grammar.matching sub t.pos ts) := by
  refine ⟨fun h => ?_, fun h => ?_, fun h => ?_, fun h => ?_⟩ <;>
  · rw [Grammar.expression, get_bind]
    obtain ⟨hk, hx⟩ := Token.isA_iff.mp h
    simp only [Token.isA, hk, hx]
    rfl

theorem recognizes_expression
    (hbound : Recognizes (sub .bound) (L .bound) (Nonterminal.goesOn .bound))
    (h : Recognizes (sub .expression) (L .expression) (Nonterminal.goesOn .expression))
    (hl : Recognizes (sub (.level operatorLevels)) (L (.level operatorLevels))
      (Nonterminal.goesOn (.level operatorLevels)))
    (ho : Opening (.level operatorLevels) (L (.level operatorLevels)))
    (ht : Tight (L (.level operatorLevels))) :
    Recognizes (Grammar.expression sub) (Phrase.Expression L) (Nonterminal.goesOn .expression) := by
  intro ts e rest
  constructor
  · intro hx
    by_cases hform : Stops isForm ts
    · rw [expression_level hform] at hx
      obtain ⟨loose, used, rfl, hd, hs⟩ := hl.phrase hx
      obtain rfl := ht _ _ _ hd
      exact ⟨false, used, rfl, .level hd, hs.mono fun t => by simp [Nonterminal.goesOn]⟩
    · cases ts with
      | nil => exact absurd (stops_nil _) hform
      | cons t ts =>
        simp only [stops_cons, Bool.not_eq_false, isForm, Bool.or_eq_true] at hform
        rcases hform with ((hk | hk) | hk) | hk
        · rw [expression_form.1 hk] at hx
          obtain ⟨loose, used, rfl, hd, hs⟩ := (recognizes_letIn hbound h t.pos).phrase hx
          exact ⟨loose, t :: used, rfl, .letIn hk hd, hs⟩
        · rw [expression_form.2.1 hk] at hx
          obtain ⟨loose, used, rfl, hd, hs⟩ := (recognizes_cond h t.pos).phrase hx
          exact ⟨loose, t :: used, rfl, .cond hk hd, hs⟩
        · rw [expression_form.2.2.1 hk] at hx
          obtain ⟨loose, used, rfl, hd, hs⟩ := (recognizes_lambda h t.pos).phrase hx
          exact ⟨loose, t :: used, rfl, .lambda hk hd, hs⟩
        · rw [expression_form.2.2.2 hk] at hx
          obtain ⟨loose, used, rfl, hd, hs⟩ := (recognizes_matching h t.pos).phrase hx
          exact ⟨loose, t :: used, rfl, .matching hk hd, hs⟩
  · rintro ⟨loose, used, rfl, hd, hs⟩
    cases hd with
    | @letIn _ t us e hk hd =>
      rw [List.cons_append, expression_form.1 hk]
      exact (recognizes_letIn hbound h t.pos).reads hd hs
    | @cond _ t us e hk hd =>
      rw [List.cons_append, expression_form.2.1 hk]
      exact (recognizes_cond h t.pos).reads hd hs
    | @lambda _ t us e hk hd =>
      rw [List.cons_append, expression_form.2.2.1 hk]
      exact (recognizes_lambda h t.pos).reads hd hs
    | @matching _ t us e hk hd =>
      rw [List.cons_append, expression_form.2.2.2 hk]
      exact (recognizes_matching h t.pos).reads hd hs
    | level hd =>
      obtain ⟨t, us, rfl, hopen⟩ := ho _ _ _ hd
      rw [List.cons_append, expression_level (by simpa using not_isForm hopen)]
      refine hl.reads hd (hs.mono fun u hu => ?_)
      simp only [Nonterminal.goesOn] at hu ⊢
      simp [hu]

end Rules

/-! ## All rules -/

/-- No operator belongs to two levels. -/
def Stratified (levels : List (List String)) : Prop :=
  levels.Pairwise fun looser tighter => ∀ operator ∈ looser, operator ∉ tighter

theorem stratified_operatorLevels : Stratified operatorLevels := by
  unfold Stratified
  decide

/-- An operator of a level is none with which an operand of that level may go on. -/
theorem operand_stops {operators : List String} {tighter : List (List String)}
    (h : Stratified (operators :: tighter)) {t : Token} (ht : isOperator operators t = true) :
    (startsPrimary t || tighter.any (isOperator · t)) = false := by
  simp only [isOperator, Bool.and_eq_true, Bool.or_eq_true, beq_iff_eq, List.contains_iff_mem] at ht
  obtain ⟨hk, hm⟩ := ht
  rw [Bool.or_eq_false_iff]
  constructor
  · rcases hk with hk | hk <;> simp [startsPrimary, Token.isA, hk]
  · rw [List.any_eq_false]
    intro level hlevel hop
    simp only [isOperator, Bool.and_eq_true, List.contains_iff_mem] at hop
    exact List.rel_of_pairwise_cons h hlevel t.lexeme hm hop.2

/-- The rules whose levels are stratified. -/
def Nonterminal.Proper : Nonterminal → Prop
  | .level levels => Stratified levels
  | _ => True

/-- Within any budget, the parser of a rule reads the phrases that the rule derives with as many rules
open at once. -/
theorem recognizes_parse (budget : Nat) (nt : Nonterminal) (hnt : nt.Proper) :
    Recognizes (nt.parse budget) (Derives budget nt) nt.goesOn := by
  induction budget generalizing nt with
  | zero =>
    refine fun ts e rest => ⟨nofun, ?_⟩
    rintro ⟨_, _, _, h, _⟩
    exact h.elim
  | succ n ih =>
    have htight (nt : Nonterminal) (h : nt.Closed) : Tight (Derives n nt) := derives_tight n h
    match nt with
    | .expression =>
      exact recognizes_expression (ih _ trivial) (ih _ trivial) (ih _ stratified_operatorLevels)
        (derives_opening n _) (htight _ trivial)
    | .bound => exact ih .expression trivial
    | .level [] =>
      have hgoes : Nonterminal.goesOn (.level []) = Nonterminal.goesOn .unary := by
        funext _ t
        simp [Nonterminal.goesOn]
      rw [hgoes]
      exact ih .unary trivial
    | .level (operators :: tighter) =>
      have hgoes : Nonterminal.goesOn (.level (operators :: tighter)) = fun _ t =>
          Nonterminal.goesOn (.level tighter) false t || isOperator operators t := by
        funext _ t
        simp only [Nonterminal.goesOn, List.any_cons]
        ac_rfl
      rw [hgoes]
      exact recognizes_level (ih (.level tighter) (List.Pairwise.of_cons hnt))
        (htight (.level tighter) trivial) fun t ht => operand_stops hnt ht
    | .unary =>
      exact recognizes_unary (ih _ trivial) (htight .unary trivial) (ih _ trivial) (htight .application trivial)
        (derives_opening n _)
    | .application => exact recognizes_application (ih _ trivial) (htight .primary trivial) (derives_opening n _)
    | .primary => exact recognizes_primary (ih _ trivial)

end Camlet
