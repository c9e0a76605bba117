import Camlet.Proofs.Recognition

/-
  Operators, signs, applications and primary expressions: the rules of the parser that are read from left
  to right. A loop reads operands or arguments as long as tokens follow that take further ones, and what
  it has read at any time is a phrase, to which each round adds one part more.
-/

namespace Camlet

open Grammar (startsPrimary isOperator)
open Stateful

variable {sub : Nonterminal → Parser Node} {L : Nonterminal → Language Node}

/-! ## Operators -/

/-- Operands read behind the first are chained to it, as far as operators follow. -/
theorem chain_phrase {operators : List String} {operand : Parser Node} {O : Language Node}
    {k : Token → Bool} (ho : Recognizes operand O fun _ => k) (ht : Tight O)
    {bound ts ls rest : List Token} {l e : Node} (hb : ts.length ≤ bound.length)
    (hl : Phrase.Level operators O false ls l) (hs : Stops k ts)
    (hx : Grammar.chain operators operand bound l ts = .ok e rest) :
    ∃ us, ts = us ++ rest ∧ Phrase.Level operators O false (ls ++ us) e ∧ Stops k rest ∧
      Stops (isOperator operators) rest := by
  induction bound generalizing ts ls l with
  | nil =>
    cases List.eq_nil_of_length_eq_zero (Nat.le_zero.mp hb)
    cases hx
    exact ⟨[], rfl, by simpa using hl, stops_nil _, stops_nil _⟩
  | cons b bound ih =>
    rw [Grammar.chain, get_bind] at hx
    cases ts with
    | nil =>
      cases hx
      exact ⟨[], rfl, by simpa using hl, stops_nil _, stops_nil _⟩
    | cons t ts =>
      by_cases htop : isOperator operators t = true
      · simp only [htop, if_true, bind_eq_ok, set_run] at hx
        obtain ⟨_, _, hset, r, s, hr, hx⟩ := hx
        cases hset
        obtain ⟨loose, rs, rfl, hrs, hs'⟩ := ho.phrase hr
        obtain rfl := ht _ _ _ hrs
        have hlen : s.length ≤ bound.length := by simp at hb; omega
        have hbinary := Phrase.Level.binary hl (Phrase.operator_iff.mpr ⟨htop, rfl⟩) hrs
        obtain ⟨us, rfl, hus, hend⟩ := ih hlen hbinary hs' hx
        exact ⟨t :: rs ++ us, by simp, by simpa using hus, hend⟩
      · simp only [htop] at hx
        cases hx
        exact ⟨[], rfl, by simpa using hl, hs, by simpa using htop⟩

theorem chain_none {operators : List String} {operand : Parser Node} {bound rest : List Token} {e : Node}
    (hs : Stops (isOperator operators) rest) :
    Grammar.chain operators operand bound e rest = .ok e rest := by
  cases bound with
  | nil => rfl
  | cons b bound =>
    rw [Grammar.chain, get_bind]
    cases rest with
    | nil => rfl
    | cons t rest =>
      simp only [stops_cons.mp hs]
      rfl

/-- What is left to do when a phrase of a level has been read. -/
theorem level_reads {operators : List String} {operand : Parser Node} {O : Language Node}
    {k : Token → Bool} (ho : Recognizes operand O fun _ => k)
    (hk : ∀ t, isOperator operators t = true → k t = false) {loose : Bool} {us rest : List Token}
    {e : Node} (hus : Phrase.Level operators O loose us e) (hs : Stops k rest) :
    ∃ bound : List Token, rest.length ≤ bound.length ∧
      Grammar.level operators operand (us ++ rest) = Grammar.chain operators operand bound e rest := by
  induction hus generalizing rest with
  | operand h =>
    refine ⟨rest, Nat.le_refl _, ?_⟩
    rw [Grammar.level, bind_ok (ho.reads h hs), get_bind]
  | @binary t o ls rs l r _ ho' h ih =>
    obtain ⟨ht, rfl⟩ := Phrase.operator_iff.mp ho'
    have hnext : Stops k (t :: (rs ++ rest)) := stops_cons.mpr (hk t ht)
    obtain ⟨bound, hb, heq⟩ := ih hnext
    cases bound with
    | nil => simp at hb
    | cons b bound =>
      refine ⟨bound, by simp at hb; omega, ?_⟩
      rw [List.append_assoc, List.cons_append, heq, Grammar.chain, get_bind]
      simp only [ht, if_true]
      rw [bind_ok (set_run (rs ++ rest) _), bind_ok (ho.reads h hs)]

theorem recognizes_level {operators : List String} {operand : Parser Node} {O : Language Node}
    {k : Token → Bool} (ho : Recognizes operand O fun _ => k) (ht : Tight O)
    (hk : ∀ t, isOperator operators t = true → k t = false) :
    Recognizes (Grammar.level operators operand) (Phrase.Level operators O)
      (fun _ t => k t || isOperator operators t) := by
  have hstops (rest : List Token) : Stops (fun t => k t || isOperator operators t) rest ↔
      Stops k rest ∧ Stops (isOperator operators) rest := by
    cases rest <;> simp
  intro ts e rest
  constructor
  · intro hx
    rw [Grammar.level, bind_eq_ok] at hx
    obtain ⟨l, r, hl, hx⟩ := hx
    obtain ⟨loose, ls, rfl, hls, hs⟩ := ho.phrase hl
    obtain rfl := ht _ _ _ hls
    obtain ⟨us, rfl, hus, hend⟩ := chain_phrase ho ht (Nat.le_refl _) (.operand hls) hs hx
    exact ⟨false, ls ++ us, by simp, hus, (hstops rest).mpr hend⟩
  · rintro ⟨loose, used, rfl, hd, hs⟩
    obtain ⟨hs, hop⟩ := (hstops rest).mp hs
    obtain ⟨bound, -, heq⟩ := level_reads ho hk hd hs
    rw [heq, chain_none hop]

/-! ## Signs -/

theorem unary_application {ts : List Token} (hts : Stops isSign ts) :
    Grammar.unary sub ts = sub .application ts := by
  rw [Grammar.unary, get_bind]
  cases ts with
  | nil => rfl
  | cons t ts =>
    rw [stops_cons, isSign] at hts
    simp only [hts]
    rfl

theorem unary_sign {t : Token} {ts : List Token} (ht : isSign t = true) :
    Grammar.unary sub (t :: ts) = (sub .unary >>= fun e => pure (.unary t.pos t.lexeme e)) ts := by
  rw [isSign] at ht
  rw [Grammar.unary, get_bind]
  simp only [ht, if_true]
  rfl

theorem not_isSign {t : Token} (ht : startsPrimary t = true) : isSign t = false := by
  cases hk : t.kind <;> simp_all [isSign, Token.isA, startsPrimary]

theorem recognizes_unary
    (hu : Recognizes (sub .unary) (L .unary) (Nonterminal.goesOn .unary)) (hut : Tight (L .unary))
    (ha : Recognizes (sub .application) (L .application) (Nonterminal.goesOn .application))
    (hat : Tight (L .application)) (hao : Opening .application (L .application)) :
    Recognizes (Grammar.unary sub) (Phrase.Unary L) (Nonterminal.goesOn .unary) := by
  intro ts e rest
  constructor
  · intro hx
    by_cases hsign : Stops isSign ts
    · rw [unary_application hsign] at hx
      obtain ⟨loose, used, rfl, hd, hs⟩ := ha.phrase hx
      obtain rfl := hat _ _ _ hd
      exact ⟨false, used, rfl, .application hd, hs⟩
    · cases ts with
      | nil => exact absurd (stops_nil _) hsign
      | cons t ts =>
        rw [stops_cons, Bool.not_eq_false] at hsign
        rw [unary_sign hsign, bind_eq_ok] at hx
        obtain ⟨e', _, he, heq⟩ := hx
        cases heq
        obtain ⟨loose, used, rfl, hd, hs⟩ := hu.phrase he
        obtain rfl := hut _ _ _ hd
        exact ⟨false, t :: used, rfl, .sign (by simpa [isSign] using hsign) hd, hs⟩
  · rintro ⟨loose, used, rfl, hd, hs⟩
    cases hd with
    | @sign t us e ht hd =>
      rw [List.cons_append, unary_sign (by simpa [isSign] using ht), bind_ok (hu.reads hd hs)]
      rfl
    | application hd =>
      obtain ⟨t, us, rfl, hopen⟩ := hao _ _ _ hd
      rw [List.cons_append, unary_application (by simpa using not_isSign hopen)]
      exact ha.reads hd hs

/-! ## Applications -/

/-- Arguments read behind a callee are applied to, as far as they follow. -/
theorem arguments_phrase {primary : Parser Node} {P : Language Node}
    (hp : Recognizes primary P fun _ _ => false) (ht : Tight P) (ho : Opening .primary P)
    {bound ts fs rest : List Token} {f e : Node} (hb : ts.length ≤ bound.length)
    (hf : Phrase.Application P false fs f)
    (hx : Grammar.arguments primary bound f ts = .ok e rest) :
    ∃ us, ts = us ++ rest ∧ Phrase.Application P false (fs ++ us) e ∧ Stops startsPrimary rest := by
  induction bound generalizing ts fs f with
  | nil =>
    cases List.eq_nil_of_length_eq_zero (Nat.le_zero.mp hb)
    cases hx
    exact ⟨[], rfl, by simpa using hf, stops_nil _⟩
  | cons b bound ih =>
    rw [Grammar.arguments, get_bind] at hx
    cases ts with
    | nil =>
      cases hx
      exact ⟨[], rfl, by simpa using hf, stops_nil _⟩
    | cons t ts =>
      by_cases hstart : startsPrimary t = true
      · simp only [hstart, if_true, bind_eq_ok] at hx
        obtain ⟨a, s, ha, hx⟩ := hx
        obtain ⟨loose, as, has, hd, -⟩ := hp.phrase ha
        obtain rfl := ht _ _ _ hd
        obtain ⟨u, vs, rfl, -⟩ := ho _ _ _ hd
        have hlen : s.length ≤ bound.length := by
          have := congrArg List.length has
          simp at *
          omega
        obtain ⟨us, rfl, hus, hend⟩ := ih hlen (.argument hf hd) hx
        exact ⟨u :: vs ++ us, by simp [has], by simpa using hus, hend⟩
      · simp only [hstart] at hx
        cases hx
        exact ⟨[], rfl, by simpa using hf, by simpa using hstart⟩

theorem arguments_none {primary : Parser Node} {bound rest : List Token} {e : Node}
    (hs : Stops startsPrimary rest) : Grammar.arguments primary bound e rest = .ok e rest := by
  cases bound with
  | nil => rfl
  | cons b bound =>
    rw [Grammar.arguments, get_bind]
    cases rest with
    | nil => rfl
    | cons t rest =>
      simp only [stops_cons.mp hs]
      rfl

/-- What is left to do when an application has been read. -/
theorem application_reads {primary : Parser Node} {P : Language Node}
    (hp : Recognizes primary P fun _ _ => false) (ho : Opening .primary P) {loose : Bool}
    {us : List Token} {e : Node} (hus : Phrase.Application P loose us e) (rest : List Token) :
    ∃ bound : List Token, rest.length ≤ bound.length ∧
      Grammar.application primary (us ++ rest) = Grammar.arguments primary bound e rest := by
  induction hus generalizing rest with
  | callee h =>
    refine ⟨rest, Nat.le_refl _, ?_⟩
    rw [Grammar.application, bind_ok (hp.reads h fun _ _ => rfl), get_bind]
  | @argument fs as f a _ h ih =>
    obtain ⟨t, as', rfl, ht⟩ := ho _ _ _ h
    obtain ⟨bound, hb, heq⟩ := ih (t :: as' ++ rest)
    cases bound with
    | nil => simp at hb
    | cons b bound =>
      refine ⟨bound, by simp at hb; omega, ?_⟩
      have hstart : startsPrimary t = true := ht
      have hread : primary (t :: as' ++ rest) = .ok a rest := hp.reads h fun _ _ => rfl
      rw [List.cons_append] at hread heq
      rw [List.append_assoc, List.cons_append, heq, Grammar.arguments, get_bind]
      simp only [hstart, if_true]
      rw [bind_ok hread]

theorem recognizes_application {primary : Parser Node} {P : Language Node}
    (hp : Recognizes primary P fun _ _ => false) (ht : Tight P) (ho : Opening .primary P) :
    Recognizes (Grammar.application primary) (Phrase.Application P) fun _ => startsPrimary := by
  intro ts e rest
  constructor
  · intro hx
    rw [Grammar.application, bind_eq_ok] at hx
    obtain ⟨f, r, hf, hx⟩ := hx
    obtain ⟨loose, fs, rfl, hfs, -⟩ := hp.phrase hf
    obtain rfl := ht _ _ _ hfs
    obtain ⟨us, rfl, hus, hend⟩ := arguments_phrase hp ht ho (Nat.le_refl _) (.callee hfs) hx
    exact ⟨false, fs ++ us, by simp, hus, hend⟩
  · rintro ⟨loose, used, rfl, hd, hs⟩
    obtain ⟨bound, -, heq⟩ := application_reads hp ho hd rest
    rw [heq, arguments_none hs]

/-! ## Primary expressions -/

/-- The literals and names are the primary expressions of one token without brackets. -/
theorem atom_eq_ok {t : Token} {e : Node} :
    Grammar.atom? t = some (.ok e) ↔ Phrase.Primary L false [t] e := by
  constructor
  · intro h
    rw [Grammar.atom?] at h
    cases hk : t.kind with
    | int =>
      simp only [hk] at h
      cases hn : Number.readInt? t.lexeme with
      | none => simp [hn] at h
      | some n => simp [hn] at h; exact h ▸ .int hk hn
    | float =>
      simp only [hk] at h
      cases hn : Number.readFloat? t.lexeme with
      | none => simp [hn] at h
      | some n => simp [hn] at h; exact h ▸ .float hk hn
    | string => simp [hk] at h; exact h ▸ .string hk
    | char => simp [hk] at h; exact h ▸ .char hk
    | identifier => simp [hk] at h; exact h ▸ .ident hk
    | backtickIdent => simp [hk] at h; exact h ▸ .backtick hk
    | keyword | operator | delimiter | comment | error | endOfInput => simp [hk] at h
  · generalize hts : [t] = ts
    intro h
    cases h with
    | bracketed ho => simp at hts
    | int hk hn | float hk hn => cases hts; simp [Grammar.atom?, hk, hn]
    | string hk | char hk | ident hk | backtick hk => cases hts; simp [Grammar.atom?, hk]

theorem atom_none {t : Token} (ht : startsPrimary t = false ∨ t.isA .delimiter "(" = true) :
    Grammar.atom? t = none := by
  cases hk : t.kind <;> simp_all [Grammar.atom?, startsPrimary, Token.isA]

section

variable (h : Recognizes (sub .expression) (L .expression) (Nonterminal.goesOn .expression))

include h

/-- What stands between brackets is read up to the closing one. -/
theorem primary_bracketed {t : Token} {ts rest : List Token} {e : Node}
    (ht : t.isA .delimiter "(" = true) : Grammar.primary sub (t :: ts) = .ok e rest ↔
      ∃ loose es c, ts = es ++ c :: rest ∧ L .expression loose es e ∧ c.isA .delimiter ")" = true := by
  rw [Grammar.primary, get_bind]
  simp only [atom_none (.inr ht), ht, if_true, Grammar.bracketed, bind_eq_ok, set_run, expect_eq_ok,
    pure_run]
  constructor
  · rintro ⟨_, _, hset, e', _, he, _, _, ⟨c, rfl, hc⟩, heq⟩
    cases hset
    cases heq
    obtain ⟨loose, es, rfl, hes, -⟩ := h.phrase he
    exact ⟨loose, es, c, rfl, hes, hc⟩
  · rintro ⟨loose, es, c, rfl, hes, hc⟩
    have hclose : Stops (Nonterminal.expression.goesOn loose) (c :: rest) := by
      rw [stops_cons, goesOn_eq hc]; cases loose <;> rfl
    exact ⟨_, _, rfl, e, _, h.reads hes hclose, (), rest, ⟨c, rfl, hc⟩, rfl⟩

omit h in
/-- Any other primary expression is a single token. -/
theorem primary_atom {t : Token} {ts rest : List Token} {e : Node}
    (ht : t.isA .delimiter "(" = false) : Grammar.primary sub (t :: ts) = .ok e rest ↔
      ts = rest ∧ Phrase.Primary L false [t] e := by
  rw [Grammar.primary, get_bind, ← atom_eq_ok]
  cases ha : Grammar.atom? t with
  | none =>
    simp only [ha, ht]
    exact ⟨fun hx => absurd hx fail_ne_ok, by simp⟩
  | some a =>
    cases a with
    | error f => simp [ha, bind_run]
    | ok e' =>
      simp only [ha, bind_run, set_run, pure_run, EStateM.Result.ok.injEq, Option.some.injEq,
        Except.ok.injEq]
      exact And.comm

theorem recognizes_primary :
    Recognizes (Grammar.primary sub) (Phrase.Primary L) (Nonterminal.goesOn .primary) := by
  have hnever (rest : List Token) : Stops (Nonterminal.primary.goesOn false) rest := fun _ _ => rfl
  intro ts e rest
  cases ts with
  | nil =>
    rw [Grammar.primary, get_bind]
    refine ⟨fun hx => absurd hx fail_ne_ok, ?_⟩
    rintro ⟨loose, used, hts, hd, -⟩
    obtain ⟨t, us, rfl, -⟩ := Phrase.Primary.opening _ _ _ hd
    simp at hts
  | cons t ts =>
    by_cases hopen : t.isA .delimiter "(" = true
    · rw [primary_bracketed h hopen]
      constructor
      · rintro ⟨l, es, c, rfl, hes, hc⟩
        exact ⟨false, t :: es ++ [c], by simp, .bracketed hopen hes hc, hnever rest⟩
      · rintro ⟨loose, used, hts, hd, -⟩
        cases hd with
        | int hk | float hk | string hk | char hk | ident hk | backtick hk =>
          cases hts
          simp [Token.isA, hk] at hopen
        | @bracketed l o c es e ho hes hc =>
          obtain ⟨rfl, rfl⟩ : t = o ∧ ts = es ++ c :: rest := by simpa using hts
          exact ⟨l, es, c, rfl, hes, hc⟩
    · rw [Bool.not_eq_true] at hopen
      rw [primary_atom (L := L) hopen]
      constructor
      · rintro ⟨rfl, hd⟩
        exact ⟨false, [t], rfl, hd, hnever ts⟩
      · rintro ⟨loose, used, hts, hd, -⟩
        obtain ⟨u, us, rfl, -⟩ := Phrase.Primary.opening _ _ _ hd
        obtain ⟨rfl, rfl⟩ : t = u ∧ ts = us ++ rest := List.cons.inj hts
        cases hd with
        | bracketed ho => simp [ho] at hopen
        | int hk hn => exact ⟨rfl, .int hk hn⟩
        | float hk hn => exact ⟨rfl, .float hk hn⟩
        | string hk => exact ⟨rfl, .string hk⟩
        | char hk => exact ⟨rfl, .char hk⟩
        | ident hk => exact ⟨rfl, .ident hk⟩
        | backtick hk => exact ⟨rfl, .backtick hk⟩

end

end Camlet
