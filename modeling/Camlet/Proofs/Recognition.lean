import Camlet.Proofs.Grammar
import Camlet.Proofs.Stateful

/-
  What it is for a parser to read the phrases of a language. Each rule of the parser reads exactly the
  phrases of its rule in the grammar, and reads greedily: it takes a phrase off the tokens if the token
  behind the phrase is none with which the phrase might go on. This is what keeps a rule from taking a
  token that belongs to a rule around it, and it is also what a rule leaves for the rules around it, so it
  is the invariant of both directions. Single tokens and parameters come first.
-/

namespace Camlet

open Grammar (startsPrimary isOperator)
open Stateful

/-- What is left does not start with a token of the given kind. -/
def Stops (p : Token → Bool) (rest : List Token) : Prop := ∀ t ∈ rest.head?, p t = false

@[simp] theorem stops_nil (p : Token → Bool) : Stops p [] := by simp [Stops]

@[simp] theorem stops_cons {p : Token → Bool} {t : Token} {ts : List Token} :
    Stops p (t :: ts) ↔ p t = false := by simp [Stops]

theorem Stops.mono {p q : Token → Bool} {rest : List Token} (h : Stops p rest)
    (hpq : ∀ t, q t = true → p t = true) : Stops q rest := by
  intro t ht
  have hp := h t ht
  cases hq : q t with
  | false => rfl
  | true => rw [hpq t hq] at hp; cases hp

/-- A token that starts a further case. -/
def isBar (t : Token) : Bool := t.isA .delimiter "|"

/-- The tokens with which a phrase of a rule may go on. -/
def Nonterminal.goesOn : Nonterminal → (loose : Bool) → Token → Bool
  | .primary, _, _ => false
  | .application, _, t => startsPrimary t
  | .unary, _, t => startsPrimary t
  | .level levels, _, t => startsPrimary t || levels.any (isOperator · t)
  | .expression, loose, t | .bound, loose, t =>
    startsPrimary t || operatorLevels.any (isOperator · t) || loose && isBar t

/-- A parser reads the phrases of a language, each as far as it does not go on. -/
def Recognizes {α : Type} (x : Parser α) (L : Language α) (goesOn : Bool → Token → Bool) : Prop :=
  ∀ ts a rest, x ts = .ok a rest ↔
    ∃ loose used, ts = used ++ rest ∧ L loose used a ∧ Stops (goesOn loose) rest

namespace Recognizes

variable {α : Type} {x : Parser α} {L : Language α} {k : Bool → Token → Bool}

/-- What is read is a phrase. -/
theorem phrase (h : Recognizes x L k) {ts rest : List Token} {a : α} (hx : x ts = .ok a rest) :
    ∃ loose used, ts = used ++ rest ∧ L loose used a ∧ Stops (k loose) rest :=
  (h ts a rest).mp hx

/-- A phrase is read. -/
theorem reads (h : Recognizes x L k) {loose : Bool} {used rest : List Token} {a : α}
    (hL : L loose used a) (hs : Stops (k loose) rest) : x (used ++ rest) = .ok a rest :=
  (h _ _ _).mpr ⟨loose, used, rfl, hL, hs⟩

end Recognizes

/-! ## Single tokens -/

theorem Token.isA_iff {t : Token} {kind : TokenKind} {lexeme : String} :
    t.isA kind lexeme = true ↔ t.kind = kind ∧ t.lexeme = lexeme := by
  simp [Token.isA]

/-- Whether a phrase goes on with a token is a matter of its class and spelling alone. -/
theorem goesOn_eq {t : Token} {kind : TokenKind} {lexeme : String} (h : t.isA kind lexeme = true)
    (nt : Nonterminal) (loose : Bool) :
    nt.goesOn loose t = nt.goesOn loose ⟨kind, lexeme, .first, none⟩ := by
  obtain ⟨rfl, rfl⟩ := Token.isA_iff.mp h
  cases nt <;> rfl

theorem accept_true {kind : TokenKind} {lexeme : String} {t : Token} {ts : List Token}
    (h : t.isA kind lexeme = true) : Parser.accept kind lexeme (t :: ts) = .ok true ts := by
  simp only [Parser.accept, get_bind, h, if_true]
  rfl

theorem accept_false {kind : TokenKind} {lexeme : String} {ts : List Token}
    (h : Stops (·.isA kind lexeme) ts) : Parser.accept kind lexeme ts = .ok false ts := by
  cases ts with
  | nil => rfl
  | cons t ts =>
    simp only [Parser.accept, get_bind, stops_cons.mp h]
    rfl

theorem accept_eq_ok {kind : TokenKind} {lexeme : String} {ts rest : List Token} {b : Bool} :
    Parser.accept kind lexeme ts = .ok b rest ↔
      (b = true ∧ ∃ t, ts = t :: rest ∧ t.isA kind lexeme = true) ∨
        (b = false ∧ ts = rest ∧ Stops (·.isA kind lexeme) rest) := by
  cases ts with
  | nil => rw [accept_false (stops_nil _)]; grind [stops_nil]
  | cons t ts =>
    cases h : t.isA kind lexeme with
    | true => rw [accept_true h]; grind [stops_cons]
    | false => rw [accept_false (stops_cons.mpr h)]; grind [stops_cons]

theorem fail_ne_ok {α : Type} {ex : Expectation} {ts rest : List Token} {a : α} :
    Parser.fail ex ts ≠ .ok a rest := by
  cases ts <;> exact nofun

theorem expect_eq_ok {kind : TokenKind} {lexeme : String} {ex : Expectation} {ts rest : List Token}
    {u : Unit} : Parser.expect kind lexeme ex ts = .ok u rest ↔
      ∃ t, ts = t :: rest ∧ t.isA kind lexeme = true := by
  rw [Parser.expect, bind_eq_ok]
  constructor
  · rintro ⟨b, s, ha, hb⟩
    cases b with
    | true =>
      cases hb
      simpa using accept_eq_ok.mp ha
    | false => exact absurd hb fail_ne_ok
  · rintro ⟨t, rfl, h⟩
    exact ⟨true, rest, accept_true h, rfl⟩

/-! ## Parameters -/

/-- Parameters behind others, whose names are `seen`. -/
structure NewParams (seen : List String) (ps : List Token) : Prop extends Phrase.Params ps where
  unseen : ∀ p ∈ ps, p.lexeme ≠ "_" → p.lexeme ∉ seen

theorem newParams_nil (seen : List String) : NewParams seen [] := by
  refine ⟨⟨?_, ?_⟩, ?_⟩ <;> simp

theorem newParams_cons {seen : List String} {t : Token} {ps : List Token} :
    NewParams seen (t :: ps) ↔
      t.kind = .identifier ∧ (t.lexeme ≠ "_" → t.lexeme ∉ seen) ∧ NewParams (t.lexeme :: seen) ps := by
  constructor
  · rintro ⟨⟨hk, hd⟩, hu⟩
    refine ⟨hk t (by simp), hu t (by simp), ⟨fun p hp => hk p (by simp [hp]), ?_⟩, ?_⟩
    · by_cases h : t.lexeme = "_"
      · simpa [h] using hd
      · simp only [List.map_cons, List.filter_cons, h, ne_eq, not_false_eq_true, decide_true,
          if_true, List.nodup_cons] at hd
        exact hd.2
    · intro p hp hne
      simp only [List.mem_cons, not_or]
      refine ⟨fun heq => ?_, hu p (by simp [hp]) hne⟩
      have hne' : t.lexeme ≠ "_" := heq ▸ hne
      simp only [List.map_cons, List.filter_cons, hne', ne_eq, not_false_eq_true, decide_true,
        if_true, List.nodup_cons] at hd
      exact hd.1 (by simp [← heq, hne, List.mem_map_of_mem hp])
  · rintro ⟨hk, hs, ⟨⟨hk', hd⟩, hu⟩⟩
    refine ⟨⟨by simpa [hk] using hk', ?_⟩, ?_⟩
    · by_cases h : t.lexeme = "_"
      · simpa [h] using hd
      · simp only [List.map_cons, List.filter_cons, h, ne_eq, not_false_eq_true, decide_true,
          if_true, List.nodup_cons]
        refine ⟨?_, hd⟩
        grind
    · intro p hp hne
      rcases List.mem_cons.mp hp with rfl | hp
      · exact hs hne
      · exact fun hm => hu p hp hne (List.mem_cons_of_mem _ hm)

theorem newParams_iff {ps : List Token} : NewParams [] ps ↔ Phrase.Params ps :=
  ⟨fun h => h.toParams, fun h => ⟨h, by simp⟩⟩

/-- A token that is a name. -/
def isName (t : Token) : Bool := t.kind == .identifier

/-- Names in front of what is no name are all of the leading names. -/
theorem names_head {t : Token} {ts ps rest : List Token} (hk : t.kind = .identifier)
    (hts : t :: ts = ps ++ rest) (hstop : Stops isName rest) : ∃ ps', ps = t :: ps' ∧ ts = ps' ++ rest := by
  cases ps with
  | nil =>
    rw [List.nil_append] at hts
    rw [← hts, stops_cons] at hstop
    simp [isName, hk] at hstop
  | cons p ps =>
    obtain ⟨rfl, htail⟩ := List.cons.inj hts
    exact ⟨ps, rfl, htail⟩

theorem paramsFrom_eq_ok {seen : List String} {ts rest : List Token} {names : List String} :
    Parser.paramsFrom seen ts = .ok names rest ↔
      ∃ ps, ts = ps ++ rest ∧ names = ps.map (·.lexeme) ∧ NewParams seen ps ∧ Stops isName rest := by
  induction ts generalizing seen names with
  | nil =>
    simp only [Parser.paramsFrom, EStateM.Result.ok.injEq]
    constructor
    · rintro ⟨rfl, rfl⟩
      exact ⟨[], rfl, rfl, newParams_nil seen, stops_nil _⟩
    · rintro ⟨ps, hts, rfl, -, -⟩
      obtain ⟨rfl, rfl⟩ := List.nil_eq_append_iff.mp hts
      exact ⟨rfl, rfl⟩
  | cons t ts ih =>
    by_cases hk : t.kind = .identifier
    · simp only [Parser.paramsFrom, hk, if_true]
      split
      next hseen =>
        -- The name was given before, so no list of new parameters starts with it.
        simp only [Bool.and_eq_true, List.contains_iff_mem, bne_iff_ne, ne_eq] at hseen
        refine ⟨nofun, ?_⟩
        rintro ⟨ps, hts, -, hps, hstop⟩
        obtain ⟨ps, rfl, rfl⟩ := names_head hk hts hstop
        exact absurd hseen.1 ((newParams_cons.mp hps).2.1 hseen.2)
      next hseen =>
        simp only [Bool.and_eq_true, List.contains_iff_mem, bne_iff_ne, ne_eq, not_and,
          Decidable.not_not] at hseen
        have hnew : t.lexeme ≠ "_" → t.lexeme ∉ seen := fun hne hm => hne (hseen hm)
        constructor
        · intro h
          cases hrec : Parser.paramsFrom (t.lexeme :: seen) ts with
          | error e r => rw [hrec] at h; cases h
          | ok ns r =>
            rw [hrec] at h
            cases h
            obtain ⟨ps, rfl, rfl, hps, hstop⟩ := ih.mp hrec
            exact ⟨t :: ps, rfl, rfl, newParams_cons.mpr ⟨hk, hnew, hps⟩, hstop⟩
        · rintro ⟨ps, hts, rfl, hps, hstop⟩
          obtain ⟨ps, rfl, rfl⟩ := names_head hk hts hstop
          have hrec := ih.mpr ⟨ps, rfl, rfl, (newParams_cons.mp hps).2.2, hstop⟩
          simp [hrec]
    · simp only [Parser.paramsFrom, hk, if_false, EStateM.Result.ok.injEq]
      constructor
      · rintro ⟨rfl, rfl⟩
        exact ⟨[], rfl, rfl, newParams_nil seen, stops_cons.mpr (by simpa [isName] using hk)⟩
      · rintro ⟨ps, hts, rfl, hps, -⟩
        cases ps with
        | nil => exact ⟨rfl, hts⟩
        | cons p ps =>
          obtain ⟨rfl, rfl⟩ : t = p ∧ ts = ps ++ rest := List.cons.inj hts
          exact absurd (newParams_cons.mp hps).1 hk

theorem params_eq_ok {ts rest : List Token} {names : List String} :
    Parser.params ts = .ok names rest ↔
      ∃ ps, ts = ps ++ rest ∧ names = ps.map (·.lexeme) ∧ Phrase.Params ps ∧ Stops isName rest := by
  simp only [Parser.params, paramsFrom_eq_ok, newParams_iff]

end Camlet
