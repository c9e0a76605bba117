import Camlet.Proofs.Acceptance
import Camlet.Proofs.Reading
import Mathlib.Data.List.DropRight

/-
  Separators keep faults apart. What stands in front of a separator and what stands behind it are read as
  if the other were not there, however malformed they are: no rule takes a separator inside a phrase, and
  after a fault reading goes on at the latest behind the next separator.

  The tokens in front are taken apart one declaration at a time. Whatever comes of a declaration, reading
  either goes on in front of the separator, or exactly behind it (`Reaches`), and this does not depend on
  what is behind.
-/

namespace Camlet

open Stateful

/-! ## How reading goes on -/

/-- Where reading goes on after some tokens in front of a separator, given what stands behind it: at fewer
tokens in front of the separator, or behind it. -/
def Reaches (sep : Token) (bound : Nat) (next : List Token → List Token) : Prop :=
  (∃ ts, ts.length < bound ∧ ∀ rest, next rest = ts ++ sep :: rest) ∨
    ∀ rest, (next rest).dropWhile isSeparator = rest.dropWhile isSeparator

theorem Reaches.mono {sep : Token} {bound bound' : Nat} {next : List Token → List Token}
    (h : Reaches sep bound next) (hb : bound ≤ bound') : Reaches sep bound' next :=
  h.imp_left fun ⟨ts, hts, hnext⟩ => ⟨ts, Nat.lt_of_lt_of_le hts hb, hnext⟩

section

variable {sep : Token} (hsep : isSeparator sep = true)

include hsep

theorem skip_reaches (ts : List Token) :
    Reaches sep (ts.length + 1) fun rest => Parsed.skip (ts ++ sep :: rest) := by
  induction ts with
  | nil =>
    have hskip : ∀ rest, Parsed.skip (sep :: rest) = rest := fun rest => by
      have hsep' : sep.isA .delimiter ";;" = true := hsep
      simp [Parsed.skip, Parsed.isRestart, hsep', (Token.isA_iff.mp hsep).1]
    exact .inr fun rest => congrArg _ (hskip rest)
  | cons t ts ih =>
    cases ht : Parsed.isRestart t with
    | true =>
      have hskip : ∀ rest, Parsed.skip (t :: ts ++ sep :: rest) = t :: ts ++ sep :: rest := fun rest => by
        simp [Parsed.skip, ht]
      exact .inl ⟨t :: ts, Nat.lt_succ_self _, hskip⟩
    | false =>
      cases hs : t.isA .delimiter ";;" with
      | true =>
        have hskip : ∀ rest, Parsed.skip (t :: ts ++ sep :: rest) = ts ++ sep :: rest := fun rest => by
          simp [Parsed.skip, ht, hs]
        exact .inl ⟨ts, Nat.lt_succ_of_lt (Nat.lt_succ_self _), hskip⟩
      | false =>
        have hskip : ∀ rest, Parsed.skip (t :: ts ++ sep :: rest) = Parsed.skip (ts ++ sep :: rest) :=
          fun rest => by simp [Parsed.skip, ht, hs]
        simp only [hskip]
        exact ih.mono (Nat.le_succ _)

theorem resume_reaches (t : Token) {ts left : List Token} (hleft : left.length ≤ ts.length + 1) :
    Reaches sep (ts.length + 1) fun rest =>
      Parsed.resume (t :: ts ++ sep :: rest) (left ++ sep :: rest) := by
  by_cases hlength : left.length = ts.length + 1
  · have hresume : ∀ rest, Parsed.resume (t :: ts ++ sep :: rest) (left ++ sep :: rest) =
        Parsed.skip (ts ++ sep :: rest) := by
      intro rest
      rw [Parsed.resume, if_pos (by simp only [List.length_append, List.length_cons]; omega)]
      rfl
    simp only [hresume]
    exact skip_reaches hsep ts
  · have hresume : ∀ rest, Parsed.resume (t :: ts ++ sep :: rest) (left ++ sep :: rest) =
        Parsed.skip (left ++ sep :: rest) := by
      intro rest
      rw [Parsed.resume, if_neg (by simp only [List.length_append, List.length_cons]; omega)]
    simp only [hresume]
    exact (skip_reaches hsep left).mono (by omega)

theorem dropWhile_reaches (ts : List Token) :
    Reaches sep (ts.length + 1) fun rest => (ts ++ sep :: rest).dropWhile isSeparator := by
  cases hts : ts.dropWhile isSeparator with
  | nil =>
    have hdrop : ∀ rest, (ts ++ sep :: rest).dropWhile isSeparator = rest.dropWhile isSeparator := by
      simp [List.dropWhile_append, hts, hsep]
    exact .inr fun rest => by simp only [hdrop, List.dropWhile_idempotent]
  | cons u us =>
    have hdrop : ∀ rest, (ts ++ sep :: rest).dropWhile isSeparator = u :: us ++ sep :: rest := by
      simp [List.dropWhile_append, hts]
    have hlength := (List.dropWhile_sublist isSeparator (l := ts)).length_le
    rw [hts] at hlength
    exact .inl ⟨u :: us, Nat.lt_succ_of_le hlength, hdrop⟩

/-- What must follow a declaration is read up to the separator, or with it. -/
theorem endDeclaration_reaches (ts : List Token) :
    (∃ next, Reaches sep (ts.length + 1) next ∧
      ∀ rest, Grammar.endDeclaration (ts ++ sep :: rest) = .ok () (next rest)) ∨
    ∃ t, t ∈ ts.head? ∧ ∀ rest, Grammar.endDeclaration (ts ++ sep :: rest) =
      .error (.unfit t .endOfDeclaration) (ts ++ sep :: rest) := by
  have hdrop : ∀ {t : Token} (ts : List Token), t.isA .delimiter ";;" = true →
      Grammar.endDeclaration (t :: ts) = .ok () (ts.dropWhile isSeparator) := by
    intro t ts ht
    simp only [Grammar.endDeclaration, get_bind, ht, if_true]
    rfl
  cases ts with
  | nil => exact .inl ⟨_, .inr (List.dropWhile_idempotent isSeparator), fun rest => hdrop rest hsep⟩
  | cons t ts =>
    cases ht : t.isA .delimiter ";;" with
    | true =>
      exact .inl ⟨_, (dropWhile_reaches hsep ts).mono (Nat.le_succ _), fun rest => hdrop _ ht⟩
    | false =>
      cases hlet : t.isA .keyword "let" with
      | true =>
        refine .inl ⟨_, .inl ⟨t :: ts, Nat.lt_succ_self _, fun _ => rfl⟩, fun rest => ?_⟩
        simp only [Grammar.endDeclaration, get_bind, List.cons_append, ht, hlet]
        rfl
      | false =>
        refine .inr ⟨t, rfl, fun rest => ?_⟩
        simp only [Grammar.endDeclaration, get_bind, List.cons_append, ht, hlet]
        rfl

/-- A rule in front of a separator does not read it, so that its run does not depend on what is behind. -/
theorem Orderly.isolated {α : Type} {x : Parser α} (h : Orderly [] x) (ts : List Token) :
    (∃ a left, ∀ rest, x (ts ++ sep :: rest) = .ok a (left ++ sep :: rest)) ∨
    ∃ e left, (∀ ex, e ≠ .atEnd ex) ∧ left.length ≤ ts.length ∧
      ∀ rest, x (ts ++ sep :: rest) = .error e (left ++ sep :: rest) := by
  obtain ⟨⟨used, hts, hused, hblame⟩, hlooks⟩ := h (ts ++ [sep])
  have hne : leftOf (x (ts ++ [sep])) ≠ [] := by
    intro hnil
    rw [hnil, List.append_nil] at hts
    have := hused sep (hts ▸ by simp)
    rw [hsep] at this
    cases this
  obtain ⟨left, s, hleft⟩ := (List.eq_nil_or_concat _).resolve_left hne
  rw [List.concat_eq_append] at hleft
  rw [hleft, ← List.append_assoc] at hts
  obtain ⟨rfl, hs⟩ := List.append_inj' hts rfl
  obtain rfl : sep = s := List.singleton_inj.mp hs
  have hrun : ∀ rest, x (used ++ left ++ sep :: rest) = extend rest (x (used ++ left ++ [sep])) := by
    intro rest
    rw [← hlooks rest hne, List.append_assoc _ [sep] rest, List.singleton_append]
  cases hr : x (used ++ left ++ [sep]) with
  | ok a l =>
    rw [hr] at hleft hrun
    obtain rfl : l = left ++ [sep] := hleft
    exact .inl ⟨a, left, fun rest => by rw [hrun]; simp [extend]⟩
  | error e l =>
    rw [hr] at hleft hrun
    obtain rfl : l = left ++ [sep] := hleft
    refine .inr ⟨e, left, ?_, by simp, fun rest => by rw [hrun]; simp [extend]⟩
    rintro ex rfl
    generalize hl : left ++ [sep] = l at hr
    cases hblame _ _ hr
    simp at hl

end

/-! ## Reading without a bound -/

namespace Parsed

/-- The declarations and faults of tokens that end at `stop`. -/
def read (budget : Nat) (stop : Pos) (ts : List Token) : List Node × List (Located SyntaxFault) :=
  collect budget stop ts.length ts

theorem skip_suffix (ts : List Token) : skip ts <:+ ts := by
  induction ts with
  | nil => exact List.suffix_refl _
  | cons t ts ih =>
    rw [skip]
    split
    · exact List.suffix_refl _
    · split
      · exact List.suffix_cons t ts
      · exact ih.trans (List.suffix_cons t ts)

/-- Reading goes on behind the first token of a declaration that failed. -/
theorem resume_suffix {t : Token} {ts left : List Token} (hleft : left <:+ t :: ts) :
    resume (t :: ts) left <:+ ts := by
  rw [resume]
  split
  · exact skip_suffix ts
  next hlength =>
    refine (skip_suffix left).trans ((List.suffix_cons_iff.mp hleft).resolve_left fun heq => ?_)
    exact hlength (congrArg List.length heq)

end Parsed

theorem endDeclaration_suffix (ts : List Token) : leftOf (Grammar.endDeclaration ts) <:+ ts := by
  rw [Grammar.endDeclaration, get_bind]
  cases ts with
  | nil => exact List.suffix_refl _
  | cons t ts =>
    dsimp only
    split
    · exact (List.dropWhile_suffix _).trans (List.suffix_cons t ts)
    · split <;> exact List.suffix_refl _

/-- Where something else follows a declaration, it is the next token. -/
theorem endDeclaration_blames {taken ts left : List Token} {e : Stop}
    (h : Grammar.endDeclaration ts = .error e left) : Blames taken e left := by
  rw [Grammar.endDeclaration, get_bind] at h
  cases ts with
  | nil => cases h
  | cons t ts =>
    dsimp only at h
    split at h
    · cases h
    · split at h <;> cases h
      exact .unfit _ _ _

/-- A declaration takes a stretch of the tokens, and where it fails it blames one of these or the next. -/
theorem declaration_takes (budget : Nat) (ts : List Token) :
    ∃ used, ts = used ++ leftOf (Grammar.declaration (Nonterminal.parse budget) ts) ∧
      ∀ e left, Grammar.declaration (Nonterminal.parse budget) ts = .error e left → Blames used e left := by
  obtain ⟨used, hts, -, hblame⟩ := (orderly_statement budget ts).takes
  rw [declaration_eq]
  cases hs : Grammar.statement (Nonterminal.parse budget) ts with
  | error e s =>
    rw [bind_run, hs]
    rw [hs] at hts
    refine ⟨used, hts, fun e' left he => ?_⟩
    cases he
    exact hblame e s hs
  | ok d s =>
    rw [hs] at hts
    obtain ⟨used', hs'⟩ := endDeclaration_suffix s
    rw [bind_ok hs, bind_run]
    cases hrun : Grammar.endDeclaration s with
    | ok u s' =>
      rw [hrun] at hs'
      refine ⟨used ++ used', ?_, fun _ _ he => by cases he⟩
      rw [List.append_assoc]
      exact hs' ▸ hts
    | error e s' =>
      rw [hrun] at hs'
      refine ⟨used ++ used', ?_, fun e' left he => ?_⟩
      · rw [List.append_assoc]
        exact hs' ▸ hts
      · cases he
        exact endDeclaration_blames hrun

/-- A declaration leaves an end of the tokens, and where it fails it blames a token that it has taken or the
next one. -/
theorem declaration_suffix (budget : Nat) (ts : List Token) :
    leftOf (Grammar.declaration (Nonterminal.parse budget) ts) <:+ ts ∧
      ∀ e left, Grammar.declaration (Nonterminal.parse budget) ts = .error e left → Blames ts e left := by
  obtain ⟨used, hts, hblame⟩ := declaration_takes budget ts
  refine ⟨⟨used, hts.symm⟩, fun e left he => (hblame e left he).mono fun t ht => ?_⟩
  rw [hts]
  exact List.mem_append_left _ ht

/-- A declaration takes a token at least. -/
theorem declaration_length_lt {budget : Nat} {ts rest : List Token} {d : Node}
    (h : Grammar.declaration (Nonterminal.parse budget) ts = .ok d rest) : rest.length < ts.length := by
  simp only [declaration_eq, bind_eq_ok] at h
  obtain ⟨_, s, hs, _, r, hend, hd⟩ := h
  cases hd
  have hlt := statement_length_lt hs
  have hle := (endDeclaration_suffix s).length_le
  rw [hend] at hle
  exact Nat.lt_of_le_of_lt hle hlt

/-- A declaration that fails leaves no more tokens than there were. -/
theorem declaration_error_suffix {budget : Nat} {ts left : List Token} {e : Stop}
    (h : Grammar.declaration (Nonterminal.parse budget) ts = .error e left) : left <:+ ts := by
  have hsuffix := (declaration_suffix budget ts).1
  rwa [h] at hsuffix

namespace Parsed

variable {budget : Nat} {stop : Pos} {t : Token} {ts : List Token}

/-- Steps beyond the number of tokens change nothing. -/
theorem collect_eq_read {fuel : Nat} (hf : ts.length ≤ fuel) :
    collect budget stop fuel ts = read budget stop ts := by
  suffices ∀ n m ts, ts.length ≤ n → ts.length ≤ m →
      collect budget stop n ts = collect budget stop m ts from this _ _ ts hf (Nat.le_refl _)
  intro n
  induction n with
  | zero =>
    intro m ts hn hm
    obtain rfl := List.eq_nil_of_length_eq_zero (Nat.le_zero.mp hn)
    cases m <;> rfl
  | succ n ih =>
    intro m ts hn hm
    cases ts with
    | nil => cases m <;> rfl
    | cons t ts =>
      cases m with
      | zero => cases hm
      | succ m =>
        have hn : ts.length ≤ n := Nat.le_of_succ_le_succ hn
        have hm : ts.length ≤ m := Nat.le_of_succ_le_succ hm
        rw [collect, collect, ih m ts hn hm]
        cases hd : Grammar.declaration (Nonterminal.parse budget) (t :: ts) with
        | ok d rest =>
          have hrest := Nat.le_of_lt_succ (declaration_length_lt hd)
          dsimp only
          rw [ih m rest (Nat.le_trans hrest hn) (Nat.le_trans hrest hm)]
        | error e left =>
          have hleft := (resume_suffix (declaration_error_suffix hd)).length_le
          dsimp only
          rw [ih m _ (Nat.le_trans hleft hn) (Nat.le_trans hleft hm)]

theorem read_separator (ht : isSeparator t = true) :
    read budget stop (t :: ts) = read budget stop ts := by
  have ht' : t.isA .delimiter ";;" = true := ht
  rw [read, List.length_cons, collect, if_pos ht']
  rfl

theorem read_ok (ht : isSeparator t = false) {d : Node} {rest : List Token}
    (hd : Grammar.declaration (Nonterminal.parse budget) (t :: ts) = .ok d rest) :
    read budget stop (t :: ts) = (d :: (read budget stop rest).1, (read budget stop rest).2) := by
  have ht' : t.isA .delimiter ";;" = false := ht
  rw [read, List.length_cons, collect, ht', if_neg Bool.false_ne_true, hd]
  dsimp only
  rw [collect_eq_read (Nat.le_of_lt_succ (declaration_length_lt hd))]

theorem read_error (ht : isSeparator t = false) {e : Stop} {left : List Token}
    (hd : Grammar.declaration (Nonterminal.parse budget) (t :: ts) = .error e left) :
    read budget stop (t :: ts) =
      ((read budget stop (resume (t :: ts) left)).1,
        locate t.pos stop e :: (read budget stop (resume (t :: ts) left)).2) := by
  have ht' : t.isA .delimiter ";;" = false := ht
  rw [read, List.length_cons, collect, ht', if_neg Bool.false_ne_true, hd]
  dsimp only
  rw [collect_eq_read ((resume_suffix (declaration_error_suffix hd)).length_le)]

theorem read_dropWhile (ts : List Token) :
    read budget stop (ts.dropWhile isSeparator) = read budget stop ts := by
  induction ts with
  | nil => rfl
  | cons t ts ih =>
    cases ht : isSeparator t with
    | true => rw [List.dropWhile_cons, if_pos ht, ih, read_separator ht]
    | false => rw [List.dropWhile_cons, ht, if_neg Bool.false_ne_true]

/-- Every fault is about the tokens of a declaration that is read from some token on. -/
theorem read_faults (ts : List Token) :
    ∀ f ∈ (read budget stop ts).2,
      ∃ u us e left, u :: us <:+ ts ∧ left <:+ u :: us ∧ Blames (u :: us) e left ∧ f = locate u.pos stop e := by
  induction hn : ts.length using Nat.strongRecOn generalizing ts with
  | _ n ih =>
    subst hn
    cases ts with
    | nil => exact List.forall_mem_nil _
    | cons t ts =>
      have hmono : ∀ {us}, us <:+ ts → ∀ f ∈ (read budget stop us).2, ∃ v vs e left,
          v :: vs <:+ t :: ts ∧ left <:+ v :: vs ∧ Blames (v :: vs) e left ∧ f = locate v.pos stop e := by
        intro us hus f hf
        obtain ⟨v, vs, e, left, hvs, h⟩ := ih _ (Nat.lt_succ_of_le hus.length_le) us rfl f hf
        exact ⟨v, vs, e, left, hvs.trans (hus.trans (List.suffix_cons t ts)), h⟩
      cases ht : isSeparator t with
      | true =>
        rw [read_separator ht]
        exact hmono (List.suffix_refl _)
      | false =>
        have hdecl := declaration_suffix budget (t :: ts)
        cases hd : Grammar.declaration (Nonterminal.parse budget) (t :: ts) with
        | ok d rest =>
          rw [hd] at hdecl
          rw [read_ok ht hd]
          refine hmono ((List.suffix_cons_iff.mp hdecl.1).resolve_left fun heq => ?_)
          exact absurd (declaration_length_lt hd) (by rw [← heq]; exact Nat.lt_irrefl _)
        | error e left =>
          rw [read_error ht hd]
          refine List.forall_mem_cons.mpr ⟨?_, hmono (resume_suffix (declaration_error_suffix hd))⟩
          exact ⟨t, ts, e, left, List.suffix_refl _, declaration_error_suffix hd, hdecl.2 e left hd, rfl⟩

end Parsed

/-! ## In front of a separator and behind it -/

section

variable {budget : Nat} {sep : Token} (hsep : isSeparator sep = true)

include hsep

/-- A declaration in front of a separator does not depend on what is behind, but for where it ends. -/
theorem declaration_isolated (budget : Nat) (t : Token) (ts : List Token) :
    (∃ d next, Reaches sep (ts.length + 1) next ∧ ∀ rest,
      Grammar.declaration (Nonterminal.parse budget) (t :: ts ++ sep :: rest) = .ok d (next rest)) ∨
    ∃ e left, (∀ ex, e ≠ .atEnd ex) ∧ left.length ≤ ts.length + 1 ∧ ∀ rest,
      Grammar.declaration (Nonterminal.parse budget) (t :: ts ++ sep :: rest) =
        .error e (left ++ sep :: rest) := by
  rw [declaration_eq]
  rcases (orderly_statement budget).isolated hsep (t :: ts) with ⟨d, s, hs⟩ | ⟨e, left, he, hleft, hs⟩
  · have hlength : s.length ≤ ts.length := by
      have := statement_length_lt (hs [])
      simp only [List.length_append, List.length_cons] at this
      omega
    rcases endDeclaration_reaches hsep s with ⟨next, hnext, hend⟩ | ⟨u, hu, hend⟩
    · refine .inl ⟨d, next, hnext.mono (Nat.succ_le_succ hlength), fun rest => ?_⟩
      rw [bind_ok (hs rest), bind_ok (hend rest)]
      rfl
    · refine .inr ⟨.unfit u .endOfDeclaration, s, fun _ => nofun, Nat.le_succ_of_le hlength,
        fun rest => ?_⟩
      rw [bind_ok (hs rest), bind_run, hend rest]
  · exact .inr ⟨e, left, he, hleft, fun rest => by rw [bind_run, hs rest]⟩

omit hsep in
/-- The place where tokens end only matters where they end too soon. -/
theorem locate_stop {e : Stop} (he : ∀ ex, e ≠ .atEnd ex) (start stop stop' : Pos) :
    Parsed.locate start stop e = Parsed.locate start stop' e := by
  cases e with
  | atEnd ex => exact absurd rfl (he ex)
  | unfit | fault | tooDeep => rfl

/-- Reading in front of a separator comes to declarations and faults that do not depend on what is behind,
and goes on in front of the separator or behind it. -/
theorem read_step (budget : Nat) (t : Token) (ts : List Token) :
    ∃ ds fs next, Reaches sep (ts.length + 1) next ∧ ∀ stop rest,
      Parsed.read budget stop (t :: ts ++ sep :: rest) =
        (ds ++ (Parsed.read budget stop (next rest)).1, fs ++ (Parsed.read budget stop (next rest)).2) := by
  cases ht : isSeparator t with
  | true =>
    have hnext : Reaches sep (ts.length + 1) fun rest => ts ++ sep :: rest :=
      .inl ⟨ts, Nat.lt_succ_self _, fun _ => rfl⟩
    exact ⟨[], [], _, hnext, fun stop rest => Parsed.read_separator ht⟩
  | false =>
    rcases declaration_isolated hsep budget t ts with ⟨d, next, hnext, hd⟩ | ⟨e, left, he, hleft, hd⟩
    · exact ⟨[d], [], next, hnext, fun stop rest => Parsed.read_ok ht (hd rest)⟩
    · refine ⟨[], [Parsed.locate t.pos .first e], _, resume_reaches hsep t hleft, fun stop rest => ?_⟩
      rw [← locate_stop he t.pos stop .first]
      exact Parsed.read_error ht (hd rest)

/-- What is in front of a separator and what is behind it are read one after the other. -/
theorem read_append (budget : Nat) (stop stop' : Pos) (as bs : List Token) :
    Parsed.read budget stop (as ++ sep :: bs) =
      ((Parsed.read budget stop' (as ++ [sep])).1 ++ (Parsed.read budget stop bs).1,
        (Parsed.read budget stop' (as ++ [sep])).2 ++ (Parsed.read budget stop bs).2) := by
  -- On the tokens in front: each step leaves fewer of them, or none.
  induction hn : as.length using Nat.strongRecOn generalizing as with
  | _ n ih =>
    subst hn
    cases as with
    | nil =>
      rw [List.nil_append, List.nil_append, Parsed.read_separator hsep, Parsed.read_separator hsep]
      rfl
    | cons t ts =>
      obtain ⟨ds, fs, next, hnext, hread⟩ := read_step hsep budget t ts
      rw [hread stop bs, hread stop' []]
      rcases hnext with ⟨us, hus, hnext⟩ | hnext
      · rw [hnext bs, hnext [], ih us.length hus us rfl]
        simp
      · have hbs : Parsed.read budget stop (next bs) = Parsed.read budget stop bs := by
          rw [← Parsed.read_dropWhile, hnext, Parsed.read_dropWhile]
        have hnil : Parsed.read budget stop' (next []) = ([], []) := by
          rw [← Parsed.read_dropWhile, hnext]
          rfl
        simp [hbs, hnil]

end

/-- The declarations that were recovered. -/
def Parsed.declarations (p : Parsed) : List Node := (p.program.map Program.body).getD []

theorem parseWithin_eq_read {budget : Nat} {body : List Token} {last : Token}
    (hbody : ∀ t ∈ body, t.kind ≠ .endOfInput) (hlast : last.kind = .endOfInput) :
    ((parseWithin budget (body ++ [last])).declarations, (parseWithin budget (body ++ [last])).errors) =
      Parsed.read budget last.pos (significant body) := by
  rw [parseWithin_append hbody hlast]
  change _ = Parsed.collect budget last.pos (significant body).length (significant body)
  cases Parsed.collect budget last.pos (significant body).length (significant body) with
  | mk ds fs => cases ds <;> rfl

theorem mem_tokenize_of_significant {source : String} {t : Token}
    (ht : t ∈ significant (Lexer.body .first source.toList)) : t ∈ tokenize source := by
  rw [tokenize_eq_body]
  exact List.mem_append_left _ (List.mem_filter.mp ht).1

/-- What a text is read as, from its tokens without the comments. -/
theorem parse_eq_read (source : String) :
    ((parse source).declarations, (parse source).errors) =
      Parsed.read nestingBudget (Pos.first.after source.toList)
        (significant (Lexer.body .first source.toList)) := by
  rw [parse, parseTokens, tokenize_eq_body]
  exact parseWithin_eq_read (fun t ht => (Lexer.body_lexed _ _ t ht).kind_ne_endOfInput) rfl

/-- A separator keeps faults apart: whatever stands in front of it and behind it, the declarations and the
faults are those of the tokens up to it, and then those of the tokens behind it. -/
theorem parseWithin_separated {budget : Nat} {as bs : List Token} {sep last last' : Token}
    (has : ∀ t ∈ as, t.kind ≠ .endOfInput) (hbs : ∀ t ∈ bs, t.kind ≠ .endOfInput)
    (hsep : sep.isA .delimiter ";;" = true) (hlast : last.kind = .endOfInput)
    (hlast' : last'.kind = .endOfInput) :
    (parseWithin budget (as ++ sep :: bs ++ [last])).declarations =
        (parseWithin budget (as ++ [sep] ++ [last'])).declarations ++
          (parseWithin budget (bs ++ [last])).declarations ∧
      (parseWithin budget (as ++ sep :: bs ++ [last])).errors =
        (parseWithin budget (as ++ [sep] ++ [last'])).errors ++
          (parseWithin budget (bs ++ [last])).errors := by
  have hsep_kind : sep.kind = .delimiter := (Token.isA_iff.mp hsep).1
  have hwhole : ∀ t ∈ as ++ sep :: bs, t.kind ≠ .endOfInput := by
    simp only [List.forall_mem_append, List.forall_mem_cons]
    exact ⟨has, by simp [hsep_kind], hbs⟩
  have hfront : ∀ t ∈ as ++ [sep], t.kind ≠ .endOfInput := by
    simp only [List.forall_mem_append, List.forall_mem_singleton]
    exact ⟨has, by simp [hsep_kind]⟩
  have hsig : ∀ ts, significant (as ++ sep :: ts) = significant as ++ sep :: significant ts := by
    intro ts
    simp [significant, hsep_kind]
  have h := read_append hsep budget last.pos last'.pos (significant as) (significant bs)
  rw [← hsig bs, ← parseWithin_eq_read hwhole hlast, ← parseWithin_eq_read hbs hlast,
    show significant as ++ [sep] = significant (as ++ [sep]) from (hsig []).symm,
    ← parseWithin_eq_read hfront hlast'] at h
  exact Prod.ext_iff.mp h

/-- The general statement at `let ;; x`, where the fault in front of the separator leaves the declaration
behind it. -/
theorem parseWithin_separated_unbound :
    let as : List Token := [⟨.keyword, "let", ⟨1, 1⟩, none⟩]
    let sep : Token := ⟨.delimiter, ";;", ⟨1, 5⟩, none⟩
    let bs : List Token := [⟨.identifier, "x", ⟨1, 8⟩, none⟩]
    let last : Token := ⟨.endOfInput, "", ⟨1, 9⟩, none⟩
    (∀ t ∈ as, t.kind ≠ .endOfInput) ∧ (∀ t ∈ bs, t.kind ≠ .endOfInput) ∧
    sep.isA .delimiter ";;" = true ∧ last.kind = .endOfInput ∧
    (parseWithin 11 (as ++ sep :: bs ++ [last])).declarations =
      (parseWithin 11 (as ++ [sep] ++ [last])).declarations ++
        (parseWithin 11 (bs ++ [last])).declarations ∧
    (parseWithin 11 (as ++ sep :: bs ++ [last])).errors =
      (parseWithin 11 (as ++ [sep] ++ [last])).errors ++ (parseWithin 11 (bs ++ [last])).errors := by
  have has : ∀ t ∈ [(⟨.keyword, "let", ⟨1, 1⟩, none⟩ : Token)], t.kind ≠ .endOfInput := by decide
  have hbs : ∀ t ∈ [(⟨.identifier, "x", ⟨1, 8⟩, none⟩ : Token)], t.kind ≠ .endOfInput := by decide
  exact ⟨has, hbs, rfl, rfl, parseWithin_separated has hbs rfl rfl rfl⟩

end Camlet
