import Camlet.Proofs.Spelling

/-
  What tokenizing keeps of a text. A source text is cut into stretches, one for each token, with nothing
  but blanks in front of, between and behind them: no character is lost, none is covered twice, and each
  token stands where its stretch starts.

  Tokens are cut from the left, so the proofs follow the lexer: each scanner covers a stretch at the
  start of what it is given (`Scan.CutFrom`, one lemma for each scanner), and a whole text is taken apart
  by the three cases of the lexer's loop (`Lexer.text_induction`).
-/

namespace Camlet

open Text (isBlank isDigit)

/-! ## Places and escapes -/

/-- The place behind a text, by its line breaks alone. -/
def place (before : List Char) : Pos :=
  ⟨1 + before.count '\n', 1 + (before.reverse.takeWhile (· ≠ '\n')).length⟩

/-- The characters that the inside of a literal stands for. -/
def decode : List Char → List Char
  | '\\' :: c :: cs => unescape c :: decode cs
  | c :: cs => c :: decode cs
  | [] => []

theorem place_append_singleton (cs : List Char) (c : Char) : place (cs ++ [c]) = (place cs).step c := by
  by_cases hc : c = '\n'
  · simp [place, Pos.step, hc]
    omega
  · simp [place, Pos.step, hc]
    omega

theorem place_append (cs ds : List Char) : place (cs ++ ds) = (place cs).after ds := by
  induction ds generalizing cs with
  | nil => simp
  | cons d ds ih => rw [← List.singleton_append, ← List.append_assoc, ih, place_append_singleton]; rfl

/-- The first place is in front of the second. -/
def Pos.Before (p q : Pos) : Prop := p.line < q.line ∨ p.line = q.line ∧ p.column < q.column

namespace Pos

theorem Before.trans {p q r : Pos} (h : p.Before q) (h' : q.Before r) : p.Before r := by
  unfold Before at h h' ⊢
  omega

theorem not_before_self (p : Pos) : ¬ p.Before p := by
  unfold Before
  omega

theorem before_step (p : Pos) (c : Char) : p.Before (p.step c) := by
  unfold Before step
  split <;> dsimp only <;> omega

theorem before_after (p : Pos) {cs : List Char} (hne : cs ≠ []) : p.Before (p.after cs) := by
  induction cs generalizing p with
  | nil => exact absurd rfl hne
  | cons c cs ih =>
    cases cs with
    | nil => exact before_step p c
    | cons d ds => exact (before_step p c).trans (ih (p.step c) (List.cons_ne_nil d ds))

end Pos

/-- A place in a text belongs to one stretch in front of it. -/
theorem place_inj {front front' back back' : List Char} (htext : front ++ back = front' ++ back')
    (hplace : place front = place front') : front = front' := by
  have hfollows : ∀ {fs : List Char} (ds : List Char), place fs = place (fs ++ ds) → ds = [] := by
    intro fs ds h
    refine Decidable.byContradiction fun hne => ?_
    have hbefore := Pos.before_after (place fs) hne
    rw [← place_append, ← h] at hbefore
    exact Pos.not_before_self _ hbefore
  rcases List.append_eq_append_iff.mp htext with ⟨ds, rfl, -⟩ | ⟨ds, rfl, -⟩
  · rw [hfollows ds hplace, List.append_nil]
  · rw [hfollows ds hplace.symm, List.append_nil]

theorem decode_cons {c : Char} (hc : c ≠ '\\') (cs : List Char) : decode (c :: cs) = c :: decode cs := by
  rw [decode.eq_def]
  split
  next h => exact absurd (List.cons.inj h).1 hc
  next h => obtain ⟨rfl, rfl⟩ := List.cons.inj h; rfl
  next h => cases h

/-! ## The stretch of a token -/

/-- The word is what a stretch of text spells: the name between backticks, what a literal's inside
stands for, and otherwise the stretch itself. -/
def Word.Covers (w : Word) (span : List Char) : Prop :=
  match w.kind with
  | .string => ∃ inside, span = '"' :: inside ++ ['"'] ∧ w.lexeme.toList = decode inside
  | .char => ∃ inside, span = '\'' :: inside ++ ['\''] ∧ w.lexeme.toList = decode inside
  | .backtickIdent => span = '\x60' :: w.lexeme.toList ++ ['\x60']
  | .endOfInput => False
  | .keyword | .identifier | .int | .float | .operator | .delimiter | .comment | .error =>
    w.lexeme.toList = span

/-- A token is cut from the start of a text: its stretch and what is left make up the text. -/
structure Scan.CutFrom (s : Scan) (cs : List Char) : Prop where
  whole : s.span ++ s.rest = cs
  nonempty : s.span ≠ []
  covers : Word.Covers ⟨s.kind, s.lexeme⟩ s.span

theorem Word.covers_ofList (kind : TokenKind) (span : List Char)
    (h : kind ∉ [TokenKind.string, .char, .backtickIdent, .endOfInput]) :
    Word.Covers ⟨kind, String.ofList span⟩ span := by
  cases kind <;> simp_all [Word.Covers]

theorem Scan.plain_cutFrom {kind : TokenKind} {span rest cs : List Char} (hwhole : span ++ rest = cs)
    (hne : span ≠ []) (hkind : kind ∉ [TokenKind.string, .char, .backtickIdent, .endOfInput]) :
    (Scan.plain kind span rest).CutFrom cs :=
  ⟨hwhole, hne, Word.covers_ofList kind span hkind⟩

theorem Scan.malformed_cutFrom {note : String} {span rest cs : List Char} (hwhole : span ++ rest = cs)
    (hne : span ≠ []) : (Scan.malformed note span rest).CutFrom cs :=
  ⟨hwhole, hne, Word.covers_ofList .error span (by decide)⟩

/-! ## One lemma for each scanner -/

theorem commentBody_whole {depth : Nat} {cs body rest : List Char}
    (h : Lexer.commentBody depth cs = some (body, rest)) : body ++ rest = cs := by
  induction depth, cs using Lexer.commentBody.induct generalizing body with
  | case1 depth cs ih | case3 depth cs ih =>
    simp only [Lexer.commentBody, Option.map_eq_some_iff] at h
    obtain ⟨⟨inner, left⟩, hinner, heq⟩ := h
    obtain ⟨rfl, rfl⟩ := Prod.mk.inj heq
    simp [ih hinner]
  | case2 cs =>
    simp only [Lexer.commentBody, Option.some.injEq, Prod.mk.injEq] at h
    obtain ⟨rfl, rfl⟩ := h
    rfl
  | case4 depth c cs hopen hclose₀ hclose ih =>
    rw [Lexer.commentBody.eq_4 _ _ _ hopen hclose₀ hclose, Option.map_eq_some_iff] at h
    obtain ⟨⟨inner, left⟩, hinner, heq⟩ := h
    obtain ⟨rfl, rfl⟩ := Prod.mk.inj heq
    simp [ih hinner]
  | case5 depth => cases depth <;> cases h

theorem comment_cutFrom (cs : List Char) : (Lexer.comment cs).CutFrom ('(' :: '*' :: cs) := by
  rw [Lexer.comment]
  split
  next body rest h =>
    exact Scan.plain_cutFrom (by simp [commentBody_whole h]) (by simp) (by decide)
  next => exact Scan.malformed_cutFrom (by simp) (by simp)

/-- A closed string body is an inside that is decoded, and the closing quote. -/
theorem stringBody_whole (cs : List Char) :
    (Lexer.stringBody cs).2.1 ++ (Lexer.stringBody cs).2.2 = cs ∧
      ∀ value, (Lexer.stringBody cs).1 = some value →
        ∃ inside, (Lexer.stringBody cs).2.1 = inside ++ ['"'] ∧ value = decode inside := by
  induction cs using Lexer.stringBody.induct with
  | case1 | case3 | case4 => exact ⟨rfl, nofun⟩
  | case2 cs =>
    refine ⟨rfl, fun value h => ⟨[], rfl, ?_⟩⟩
    exact (Option.some.inj h).symm
  | case5 c cs value span rest heq ih =>
    obtain ⟨hwhole, hvalue⟩ := ih
    refine ⟨by simp [Lexer.stringBody, hwhole], fun value h => ?_⟩
    simp only [Lexer.stringBody, Option.map_eq_some_iff] at h ⊢
    obtain ⟨inner, hinner, rfl⟩ := h
    obtain ⟨inside, hspan, rfl⟩ := hvalue inner hinner
    exact ⟨'\\' :: c :: inside, by simp [hspan], rfl⟩
  | case6 c cs hquote hline hescape₁ hescape value span rest heq ih =>
    obtain ⟨hwhole, hvalue⟩ := ih
    rw [Lexer.stringBody.eq_6 _ _ hquote hline hescape₁ hescape]
    refine ⟨by simp [hwhole], fun value h => ?_⟩
    simp only [Option.map_eq_some_iff] at h
    obtain ⟨inner, hinner, rfl⟩ := h
    obtain ⟨inside, hspan, rfl⟩ := hvalue inner hinner
    refine ⟨c :: inside, by simp [hspan], (decode_cons ?_ _).symm⟩
    rintro rfl
    cases cs with
    | nil => exact hescape₁ rfl rfl
    | cons d ds => exact hescape d ds rfl rfl

theorem string_cutFrom (cs : List Char) : (Lexer.string cs).CutFrom ('"' :: cs) := by
  obtain ⟨hwhole, hvalue⟩ := stringBody_whole cs
  rw [Lexer.string]
  split
  next value span rest h =>
    simp only [h] at hwhole hvalue
    obtain ⟨inside, hspan, hdecode⟩ := hvalue value rfl
    refine ⟨by simp [hwhole], List.cons_ne_nil _ _, inside, by simp [hspan], by simp [hdecode]⟩
  next span rest h =>
    simp only [h] at hwhole
    exact Scan.malformed_cutFrom (by simp [hwhole]) (by simp)

/-- The end of a character literal, once its inside is read. -/
theorem charEnd_cutFrom {value : Char} (inside : List Char) (hinside : decode inside = [value])
    (cs : List Char) :
    (Lexer.charEnd value ('\'' :: inside) cs).CutFrom ('\'' :: inside ++ cs) := by
  rw [Lexer.charEnd.eq_def]
  split
  next rest => exact ⟨by simp, List.cons_ne_nil _ _, inside, rfl, by simp [hinside]⟩
  next => exact Scan.malformed_cutFrom rfl (List.cons_ne_nil _ _)

theorem char_cutFrom (cs : List Char) : (Lexer.char cs).CutFrom ('\'' :: cs) := by
  rw [Lexer.char.eq_def]
  split
  next => exact Scan.malformed_cutFrom rfl (List.cons_ne_nil _ _)
  next c rest => exact charEnd_cutFrom ['\\', c] rfl rest
  next => exact Scan.malformed_cutFrom rfl (List.cons_ne_nil _ _)
  next => exact Scan.malformed_cutFrom rfl (List.cons_ne_nil _ _)
  next c rest _ hescape hescape₁ _ =>
    refine charEnd_cutFrom [c] (decode_cons ?_ []) rest
    rintro rfl
    cases rest with
    | nil => exact hescape₁ rfl rfl
    | cons d ds => exact hescape d ds rfl rfl
  next => exact Scan.malformed_cutFrom rfl (List.cons_ne_nil _ _)

theorem backtick_cutFrom (cs : List Char) : (Lexer.backtick cs).CutFrom ('\x60' :: cs) := by
  have hwhole := List.takeWhile_append_dropWhile (p := (· ≠ '\x60')) (l := cs)
  have hclose := List.head?_dropWhile_not (· ≠ '\x60') cs
  simp only [Lexer.backtick]
  generalize cs.takeWhile (· ≠ '\x60') = name at hwhole ⊢
  generalize cs.dropWhile (· ≠ '\x60') = left at hwhole hclose ⊢
  subst hwhole
  cases left with
  | nil => exact Scan.malformed_cutFrom rfl (List.cons_ne_nil _ _)
  | cons c rest =>
    obtain rfl : c = '\x60' := by simpa using hclose
    dsimp only
    split
    · exact Scan.malformed_cutFrom (by simp) (List.cons_ne_nil _ _)
    · exact ⟨by simp, List.cons_ne_nil _ _, by simp [Word.Covers]⟩

theorem exponent_cutFrom {kind : TokenKind} (hkind : kind = .int ∨ kind = .float) {span : List Char}
    (hne : span ≠ []) (cs : List Char) : (Lexer.exponent kind span cs).CutFrom (span ++ cs) := by
  have hkind : kind ∉ [TokenKind.string, .char, .backtickIdent, .endOfInput] := by
    rcases hkind with rfl | rfl <;> decide
  rw [Lexer.exponent.eq_def]
  split
  next => exact Scan.plain_cutFrom rfl hne hkind
  next e cs =>
    have hsign : (cs.take 1).takeWhile (fun c => c == '+' || c == '-') <+: cs :=
      (List.takeWhile_prefix _).trans (List.take_prefix 1 cs)
    rw [List.prefix_iff_eq_append] at hsign
    split
    · generalize (cs.take 1).takeWhile (fun c => c == '+' || c == '-') = sign at hsign ⊢
      have hdigits := List.takeWhile_append_dropWhile (p := isDigit) (l := cs.drop sign.length)
      dsimp only
      split
      · exact Scan.malformed_cutFrom (by simp [hsign]) (by simp)
      · exact Scan.plain_cutFrom (by simp [hdigits, hsign]) (by simp) (by decide)
    · exact Scan.plain_cutFrom rfl hne hkind

theorem number_cutFrom {c : Char} (hc : isDigit c = true) (cs : List Char) :
    (Lexer.number (c :: cs)).CutFrom (c :: cs) := by
  have hwhole := List.takeWhile_append_dropWhile (p := isDigit) (l := c :: cs)
  have hne : (c :: cs).takeWhile isDigit ≠ [] := by simp [hc]
  rw [Lexer.number]
  generalize (c :: cs).takeWhile isDigit = whole at hwhole hne ⊢
  generalize (c :: cs).dropWhile isDigit = left at hwhole ⊢
  rw [← hwhole]
  dsimp only
  split
  next rest =>
    have hdigits := List.takeWhile_append_dropWhile (p := isDigit) (l := rest)
    split
    · exact Scan.malformed_cutFrom (by simp) (by simp)
    · have hne : whole ++ '.' :: rest.takeWhile isDigit ≠ [] := by simp
      have hcut := exponent_cutFrom (.inr (Eq.refl TokenKind.float)) hne (rest.dropWhile isDigit)
      rwa [List.append_assoc, List.cons_append, hdigits] at hcut
  next => exact exponent_cutFrom (.inl rfl) hne _

theorem word_cutFrom {c : Char} (hc : Lexer.startsWord c = true) (cs : List Char) :
    (Lexer.word (c :: cs)).CutFrom (c :: cs) := by
  have hcontinues : Lexer.continuesWord c = true := by
    simp only [Lexer.startsWord, Lexer.continuesWord, Bool.or_eq_true] at hc ⊢
    exact .inl (hc.imp_left .inl)
  have hkind := word_kind (c :: cs)
  refine Scan.plain_cutFrom (List.takeWhile_append_dropWhile ..) (by simp [hcontinues]) ?_
  intro h
  change (Lexer.word (c :: cs)).kind ∈ _ at h
  revert hkind h
  cases (Lexer.word (c :: cs)).kind <;> decide

theorem symbol_cutFrom (c : Char) (cs : List Char) : (Lexer.symbol c cs).CutFrom (c :: cs) := by
  rw [Lexer.symbol]
  split
  next s h =>
    have hmem : s ∈ symbols := List.mem_of_find?_eq_some h
    have hprefix : s.toList <+: c :: cs := List.isPrefixOf_iff_prefix.mp (by simpa using List.find?_some h)
    have hne : s.toList ≠ [] := by
      have : ∀ s ∈ symbols, s.toList ≠ [] := by decide
      exact this s hmem
    refine ⟨?_, hne, ?_⟩
    · rw [← String.length_toList]
      exact List.prefix_iff_eq_append.mp hprefix
    · simp only [Lexer.symbolKind]
      split <;> rfl
  next => exact Scan.malformed_cutFrom rfl (List.cons_ne_nil _ _)

theorem scan_cutFrom (c : Char) (cs : List Char) : (Lexer.scan c cs).CutFrom (c :: cs) := by
  rw [Lexer.scan]
  split
  next h =>
    obtain ⟨rfl, hstar⟩ := h
    obtain ⟨rest, rfl⟩ : ∃ rest, cs = '*' :: rest := by
      cases cs <;> simp_all
    exact comment_cutFrom rest
  split
  next h => exact h ▸ string_cutFrom cs
  split
  next h => exact h ▸ char_cutFrom cs
  split
  next h => exact h ▸ backtick_cutFrom cs
  split
  next h => exact number_cutFrom h cs
  split
  next h => exact word_cutFrom h cs
  next => exact symbol_cutFrom c cs

theorem scan_rest_length (c : Char) (cs : List Char) : (Lexer.scan c cs).rest.length ≤ cs.length := by
  obtain ⟨hwhole, hne, -⟩ := scan_cutFrom c cs
  have hlength := congrArg List.length hwhole
  have := List.length_pos_iff.mpr hne
  rw [List.length_append, List.length_cons] at hlength
  omega

/-! ## The lexer's loop -/

namespace Lexer

/-- The tokens of a text that starts at a place. -/
def tokens (pos : Pos) (cs : List Char) : List Token := tokensFrom cs.length pos cs

/-- Steps beyond the length of the text change nothing. -/
theorem tokensFrom_eq_tokens {fuel : Nat} {pos : Pos} {cs : List Char} (hf : cs.length ≤ fuel) :
    tokensFrom fuel pos cs = tokens pos cs := by
  suffices ∀ n m pos cs, cs.length ≤ n → cs.length ≤ m → tokensFrom n pos cs = tokensFrom m pos cs from
    this _ _ pos cs hf (Nat.le_refl _)
  intro n
  induction n with
  | zero =>
    intro m pos cs hn hm
    obtain rfl : cs = [] := List.length_eq_zero_iff.mp (Nat.le_zero.mp hn)
    simp [tokensFrom]
  | succ n ih =>
    intro m pos cs hn hm
    cases cs with
    | nil => simp [tokensFrom]
    | cons c cs =>
      cases m with
      | zero => cases hm
      | succ m =>
        have hn : cs.length ≤ n := Nat.le_of_succ_le_succ hn
        have hm : cs.length ≤ m := Nat.le_of_succ_le_succ hm
        have hrest := scan_rest_length c cs
        simp only [tokensFrom, ih m _ cs hn hm,
          ih m _ (scan c cs).rest (Nat.le_trans hrest hn) (Nat.le_trans hrest hm)]

@[simp] theorem tokens_nil (pos : Pos) : tokens pos [] = [⟨.endOfInput, "", pos, none⟩] := rfl

theorem tokens_blank {c : Char} (hc : isBlank c = true) (pos : Pos) (cs : List Char) :
    tokens pos (c :: cs) = tokens (pos.step c) cs := by
  rw [tokens, List.length_cons, tokensFrom, if_pos hc]
  rfl

theorem tokens_scan {c : Char} (hc : isBlank c = false) (pos : Pos) (cs : List Char) :
    tokens pos (c :: cs) =
      (scan c cs).token pos :: tokens (pos.after (scan c cs).span) (scan c cs).rest := by
  rw [tokens, List.length_cons, tokensFrom, hc, if_neg Bool.false_ne_true]
  dsimp only
  rw [tokensFrom_eq_tokens (scan_rest_length c cs)]

/-- A text is empty, or starts with a blank, or starts with the stretch of a token. -/
theorem text_induction {motive : List Char → Prop} (nil : motive [])
    (blank : ∀ c cs, isBlank c = true → motive cs → motive (c :: cs))
    (scan : ∀ c cs, isBlank c = false → motive (scan c cs).rest → motive (c :: cs))
    (cs : List Char) : motive cs := by
  induction hn : cs.length using Nat.strongRecOn generalizing cs with
  | _ n ih =>
    subst hn
    cases cs with
    | nil => exact nil
    | cons c cs =>
      by_cases hc : isBlank c = true
      · exact blank c cs hc (ih _ (Nat.lt_succ_self _) cs rfl)
      · have hrest := scan_rest_length c cs
        exact scan c cs (by simpa using hc) (ih _ (Nat.lt_succ_of_le hrest) _ rfl)

/-- The tokens of a text stand one behind the other, from where the text starts. -/
theorem tokens_ordered (pos : Pos) (cs : List Char) :
    (tokens pos cs).Pairwise (fun t u => t.pos.Before u.pos) ∧
      ∀ t ∈ tokens pos cs, t.pos = pos ∨ pos.Before t.pos := by
  induction cs using text_induction generalizing pos with
  | nil => exact ⟨List.pairwise_singleton _ _, fun t ht => .inl (List.mem_singleton.mp ht ▸ rfl)⟩
  | blank c cs hc ih =>
    rw [tokens_blank hc]
    obtain ⟨hpairwise, hfrom⟩ := ih (pos.step c)
    refine ⟨hpairwise, fun t ht => .inr ?_⟩
    rcases hfrom t ht with heq | hbefore
    · exact heq ▸ Pos.before_step pos c
    · exact (Pos.before_step pos c).trans hbefore
  | scan c cs hc ih =>
    have hend := Pos.before_after pos (scan_cutFrom c cs).nonempty
    rw [tokens_scan hc]
    obtain ⟨hpairwise, hfrom⟩ := ih (pos.after (scan c cs).span)
    have hbehind : ∀ t ∈ tokens (pos.after (scan c cs).span) (scan c cs).rest, pos.Before t.pos := by
      intro t ht
      rcases hfrom t ht with heq | hbefore
      · exact heq ▸ hend
      · exact hend.trans hbefore
    refine ⟨List.pairwise_cons.mpr ⟨hbehind, hpairwise⟩, fun t ht => ?_⟩
    rcases List.mem_cons.mp ht with rfl | ht
    · exact .inl rfl
    · exact .inr (hbehind t ht)

end Lexer

theorem tokenize_eq_tokens (source : String) : tokenize source = Lexer.tokens .first source.toList := rfl

/-! ## The whole text -/

/-- A token, the stretch of text it is cut from and the stretch in front of it. -/
structure Segment where
  gap : List Char
  span : List Char
  token : Token

/-- The text that a segment takes up. -/
def Segment.text (p : Segment) : List Char := p.gap ++ p.span

/-- A token that is cut from its own stretch, with nothing but blanks in front. -/
structure Segment.IsCut (p : Segment) : Prop where
  gap : ∀ c ∈ p.gap, isBlank c = true
  nonempty : p.span ≠ []
  covers : p.token.word.Covers p.span

/-- The text from which segments are cut, one behind the other, up to the blanks behind the last. -/
def assembled (ps : List Segment) (last : List Char) : List Char := ps.flatMap Segment.text ++ last

/-- Each segment's token stands where its stretch starts, in a text with `before` in front. -/
def Placed (before : List Char) (ps : List Segment) : Prop :=
  ∀ front p behind, ps = front ++ p :: behind →
    p.token.pos = place (before ++ front.flatMap Segment.text ++ p.gap)

theorem Placed.nil (before : List Char) : Placed before [] := by
  intro front p behind h
  simp at h

theorem Placed.cons {before : List Char} {p : Segment} {ps : List Segment}
    (hp : p.token.pos = place (before ++ p.gap)) (hps : Placed (before ++ p.text) ps) :
    Placed before (p :: ps) := by
  intro front q behind h
  cases front with
  | nil =>
    obtain ⟨rfl, -⟩ := List.cons.inj h
    simpa using hp
  | cons r front =>
    obtain ⟨rfl, hq⟩ := List.cons.inj h
    simpa using hps front q behind hq

/-- One more blank in front of a segment. -/
def Segment.indent (c : Char) (p : Segment) : Segment := { p with gap := c :: p.gap }

theorem Placed.indent {before : List Char} {c : Char} {p : Segment} {ps : List Segment}
    (h : Placed (before ++ [c]) (p :: ps)) : Placed before (p.indent c :: ps) := by
  refine .cons ?_ fun front q behind hq => ?_
  · simpa [Segment.indent] using h [] p ps rfl
  · simpa [Segment.indent, Segment.text] using h (p :: front) q behind (congrArg _ hq)

/-- A text with something in front is cut into segments. -/
theorem tokens_cover (before cs : List Char) :
    ∃ ps last, cs = assembled ps last ∧
      Lexer.tokens (place before) cs =
        ps.map Segment.token ++ [⟨.endOfInput, "", place (before ++ cs), none⟩] ∧
      (∀ p ∈ ps, p.IsCut) ∧ (∀ c ∈ last, isBlank c = true) ∧ Placed before ps := by
  induction cs using Lexer.text_induction generalizing before with
  | nil => exact ⟨[], [], rfl, by simp, List.forall_mem_nil _, List.forall_mem_nil _, .nil _⟩
  | blank c cs hc ih =>
    obtain ⟨ps, last, hcs, htokens, hcut, hlast, hplaced⟩ := ih (before ++ [c])
    rw [Lexer.tokens_blank hc, ← place_append_singleton, htokens, List.append_assoc,
      List.singleton_append]
    cases ps with
    | nil =>
      refine ⟨[], c :: last, by simp_all [assembled], rfl, List.forall_mem_nil _, ?_, .nil _⟩
      exact List.forall_mem_cons.mpr ⟨hc, hlast⟩
    | cons p ps =>
      refine ⟨p.indent c :: ps, last, ?_, rfl, ?_, hlast, hplaced.indent⟩
      · rw [hcs]
        simp [assembled, Segment.text, Segment.indent]
      · obtain ⟨⟨hgap, hne, hcovers⟩, hps⟩ := List.forall_mem_cons.mp hcut
        exact List.forall_mem_cons.mpr ⟨⟨List.forall_mem_cons.mpr ⟨hc, hgap⟩, hne, hcovers⟩, hps⟩
  | scan c cs hc ih =>
    obtain ⟨hwhole, hne, hcovers⟩ := scan_cutFrom c cs
    rw [Lexer.tokens_scan hc, ← place_append]
    generalize Lexer.scan c cs = s at *
    obtain ⟨ps, last, hrest, htokens, hcut, hlast, hplaced⟩ := ih (before ++ s.span)
    let p : Segment := ⟨[], s.span, s.token (place before)⟩
    have hp : p.IsCut := ⟨List.forall_mem_nil _, hne, hcovers⟩
    refine ⟨p :: ps, last, ?_, ?_, List.forall_mem_cons.mpr ⟨hp, hcut⟩, hlast, ?_⟩
    · rw [← hwhole, hrest]
      simp [assembled, Segment.text, p]
    · rw [htokens, List.append_assoc, hwhole]
      rfl
    · exact .cons (by simp [p, Scan.token]) (by simpa [p, Segment.text] using hplaced)

/-- A source text is cut into segments and the blanks behind them: its tokens are those of the segments, each
at the place of its stretch, and one end of input at the place behind the text. -/
theorem tokenize_covers (source : String) :
    ∃ ps last, source.toList = assembled ps last ∧
      tokenize source = ps.map Segment.token ++ [⟨.endOfInput, "", place source.toList, none⟩] ∧
      (∀ p ∈ ps, (∀ c ∈ p.gap, isBlank c = true) ∧ p.span ≠ [] ∧ p.token.word.Covers p.span) ∧
      (∀ c ∈ last, isBlank c = true) ∧
      ∀ front p behind, ps = front ++ p :: behind →
        p.token.pos = place (front.flatMap Segment.text ++ p.gap) := by
  obtain ⟨ps, last, hcs, htokens, hcut, hlast, hplaced⟩ := tokens_cover [] source.toList
  refine ⟨ps, last, hcs, htokens, fun p hp => ?_, hlast, hplaced⟩
  obtain ⟨hgap, hne, hcovers⟩ := hcut p hp
  exact ⟨hgap, hne, hcovers⟩

end Camlet
