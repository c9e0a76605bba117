import Camlet.Proofs.Spans

/-
  Cutting at blanks. A blank behind a text ends its last token whatever follows the blank, so a text is cut
  the same way in front of a blank as on its own, as long as nothing in it is malformed: an unterminated
  literal or comment would reach over the blank. A semicolon ends a token too, unless that is one itself.

  Each scanner is shown to stop at the same character in both texts (`Scan.behind`, one lemma for each
  scanner), and the texts are then taken apart by the three cases of the lexer's loop. Where in a text the
  tokens stand changes nothing but their places.
-/

namespace Camlet

open Text (isBlank isDigit)

/-- A character that is blank is none of those that are not. -/
theorem isBlank.ne {d e : Char} (h : isBlank d = true) (he : isBlank e = false) : d ≠ e := by
  rintro rfl
  rw [h] at he
  cases he

theorem isBlank.not_isDigit {d : Char} (h : isBlank d = true) : isDigit d = false := by
  rw [← Bool.not_eq_true]
  exact fun hd => Bool.false_ne_true ((isDigit_not_isBlank hd).symm.trans h)

theorem isBlank.not_continuesWord {d : Char} (h : isBlank d = true) : Lexer.continuesWord d = false := by
  have hletter : Text.isLetter d = false := by
    rw [← Bool.not_eq_true]
    exact fun hd => Bool.false_ne_true ((isLetter_not_isBlank hd).symm.trans h)
  have hunderscore : d ≠ '_' := isBlank.ne h (by decide)
  have hquote : d ≠ '\'' := isBlank.ne h (by decide)
  simp [Lexer.continuesWord, hletter, isBlank.not_isDigit h, hunderscore, hquote]

/-- What is taken while a condition holds ends at a character of which it does not hold. -/
theorem takeWhile_append_cons {p : Char → Bool} {d : Char} (hd : p d = false) (cs ds : List Char) :
    (cs ++ d :: ds).takeWhile p = cs.takeWhile p ∧
      (cs ++ d :: ds).dropWhile p = cs.dropWhile p ++ d :: ds := by
  induction cs with
  | nil => simp [hd]
  | cons c cs ih => by_cases hc : p c = true <;> simp [hc, ih]

/-- The scan of a text with more behind it. -/
def Scan.behind (s : Scan) (more : List Char) : Scan := { s with rest := s.rest ++ more }

/-- A scanned token that is not malformed. -/
def Scan.Sound (s : Scan) : Prop := s.kind ≠ .error

theorem Scan.not_sound_malformed {note : String} {span rest : List Char} :
    ¬ (Scan.malformed note span rest).Sound := fun h => h rfl

/-! ## One lemma for each scanner -/

/-- A character of a comment that is read by itself, with its next one there, is so whatever stands behind. -/
theorem commentBody_plain_append {depth : Nat} {c e : Char} {es : List Char}
    (hopen : ∀ fs, c = '(' → e :: es = '*' :: fs → False)
    (hclose₀ : ∀ fs, depth = 0 → c = '*' → e :: es = ')' :: fs → False)
    (hclose : ∀ d fs, depth = d + 1 → c = '*' → e :: es = ')' :: fs → False) (more : List Char) :
    Lexer.commentBody depth (c :: e :: es ++ more) =
      (Lexer.commentBody depth (e :: es ++ more)).map fun r => (c :: r.1, r.2) := by
  have hfirst : ∀ {d fs}, e :: es ++ more = d :: fs → e :: es = d :: es := fun hfs =>
    congrArg (· :: es) (List.cons.inj hfs).1
  exact Lexer.commentBody.eq_4 depth c (e :: es ++ more) (fun _ hc hfs => hopen es hc (hfirst hfs))
    (fun _ hd hc hfs => hclose₀ es hd hc (hfirst hfs)) (fun d _ hd hc hfs => hclose d es hd hc (hfirst hfs))

theorem commentBody_append {depth : Nat} {cs body rest : List Char} (more : List Char)
    (h : Lexer.commentBody depth cs = some (body, rest)) :
    Lexer.commentBody depth (cs ++ more) = some (body, rest ++ more) := by
  induction depth, cs using Lexer.commentBody.induct generalizing body with
  | case1 depth cs ih | case3 depth cs ih =>
    simp only [Lexer.commentBody, Option.map_eq_some_iff] at h
    obtain ⟨⟨inner, left⟩, hinner, heq⟩ := h
    obtain ⟨rfl, rfl⟩ := Prod.mk.inj heq
    simp [Lexer.commentBody, ih hinner]
  | case2 cs =>
    simp only [Lexer.commentBody, Option.some.injEq, Prod.mk.injEq] at h
    obtain ⟨rfl, rfl⟩ := h
    rfl
  | case4 depth c cs hopen hclose₀ hclose ih =>
    rw [Lexer.commentBody.eq_4 _ _ _ hopen hclose₀ hclose, Option.map_eq_some_iff] at h
    obtain ⟨⟨inner, left⟩, hinner, heq⟩ := h
    obtain ⟨rfl, rfl⟩ := Prod.mk.inj heq
    -- The body goes on, so that the next character, which decides the rule, is there already.
    cases cs with
    | nil => cases depth <;> cases hinner
    | cons e es =>
      rw [commentBody_plain_append hopen hclose₀ hclose, ih hinner]
      rfl
  | case5 depth => cases depth <;> cases h

theorem comment_append {cs : List Char} (h : (Lexer.comment cs).Sound) (more : List Char) :
    Lexer.comment (cs ++ more) = (Lexer.comment cs).behind more := by
  unfold Lexer.comment at h ⊢
  split at h
  next body rest hbody =>
    rw [commentBody_append more hbody]
    rfl
  next => exact absurd h Scan.not_sound_malformed

theorem stringBody_append (cs more : List Char) {value span rest : List Char}
    (h : Lexer.stringBody cs = (some value, span, rest)) :
    Lexer.stringBody (cs ++ more) = (some value, span, rest ++ more) := by
  induction cs using Lexer.stringBody.induct generalizing value span with
  | case1 | case3 | case4 => cases h
  | case2 cs =>
    cases h
    rfl
  | case5 c cs value' span' rest' heq ih =>
    simp only [Lexer.stringBody, Prod.mk.injEq, Option.map_eq_some_iff] at h
    obtain ⟨⟨inner, hinner, rfl⟩, rfl, rfl⟩ := h
    have htail := ih (Prod.ext hinner rfl)
    simp [Lexer.stringBody, htail]
  | case6 c cs hquote hline hescape₁ hescape value' span' rest' heq ih =>
    rw [Lexer.stringBody.eq_6 _ _ hquote hline hescape₁ hescape] at h
    simp only [Prod.mk.injEq, Option.map_eq_some_iff] at h
    obtain ⟨⟨inner, hinner, rfl⟩, rfl, rfl⟩ := h
    have htail := ih (Prod.ext hinner rfl)
    have hbackslash : c ≠ '\\' := by
      rintro rfl
      cases cs with
      | nil => exact hescape₁ rfl rfl
      | cons d ds => exact hescape d ds rfl rfl
    rw [List.cons_append, Lexer.stringBody.eq_6 _ _ hquote hline (fun hc => absurd hc hbackslash)
      (fun _ _ hc => absurd hc hbackslash), htail]
    rfl

theorem string_append {cs : List Char} (h : (Lexer.string cs).Sound) (more : List Char) :
    Lexer.string (cs ++ more) = (Lexer.string cs).behind more := by
  unfold Lexer.string at h ⊢
  split at h
  next value span rest hbody =>
    rw [stringBody_append cs more hbody]
    rfl
  next => exact absurd h Scan.not_sound_malformed

theorem charEnd_append {value : Char} {span cs : List Char} (h : (Lexer.charEnd value span cs).Sound)
    (more : List Char) :
    Lexer.charEnd value span (cs ++ more) = (Lexer.charEnd value span cs).behind more := by
  rw [Lexer.charEnd.eq_def] at h
  split at h
  next => rfl
  next => exact absurd h Scan.not_sound_malformed

theorem char_append {cs : List Char} (h : (Lexer.char cs).Sound) (more : List Char) :
    Lexer.char (cs ++ more) = (Lexer.char cs).behind more := by
  rw [Lexer.char.eq_def] at h
  split at h
  next => exact absurd h Scan.not_sound_malformed
  next c rest => exact charEnd_append h more
  next => exact absurd h Scan.not_sound_malformed
  next => exact absurd h Scan.not_sound_malformed
  next c rest hquote hescape hescape₁ hline =>
    have hbackslash : c ≠ '\\' := by
      rintro rfl
      cases rest with
      | nil => exact hescape₁ rfl rfl
      | cons d ds => exact hescape d ds rfl rfl
    rw [Lexer.char.eq_5 c rest hquote hescape hescape₁ hline, List.cons_append,
      Lexer.char.eq_5 c (rest ++ more) hquote (fun _ _ hc => absurd hc hbackslash)
        (fun hc => absurd hc hbackslash) hline]
    exact charEnd_append h more
  next => exact absurd h Scan.not_sound_malformed

/-- Where something is left that was not taken, nothing behind it is taken. -/
theorem takeWhile_append_left {p : Char → Bool} {cs rest : List Char} {c : Char}
    (h : cs.dropWhile p = c :: rest) (more : List Char) :
    (cs ++ more).takeWhile p = cs.takeWhile p ∧ (cs ++ more).dropWhile p = c :: rest ++ more := by
  induction cs with
  | nil => cases h
  | cons e es ih => by_cases he : p e = true <;> simp_all

theorem backtick_append {cs : List Char} (h : (Lexer.backtick cs).Sound) (more : List Char) :
    Lexer.backtick (cs ++ more) = (Lexer.backtick cs).behind more := by
  unfold Lexer.backtick at h ⊢
  cases hleft : cs.dropWhile (· ≠ '\x60') with
  | nil =>
    rw [hleft] at h
    exact absurd h Scan.not_sound_malformed
  | cons c rest =>
    obtain ⟨htake, hdrop⟩ := takeWhile_append_left hleft more
    rw [hleft] at h
    rw [htake, hdrop]
    dsimp only [List.cons_append] at h ⊢
    split at h
    · exact absurd h Scan.not_sound_malformed
    next hname =>
      rw [if_neg hname, if_neg hname]
      rfl

/-- A character that ends the token in front of it, if `P` holds of the class and the spelling of that: it goes
on with no word, number or comment, and with no such symbol. -/
structure Boundary (d : Char) (P : TokenKind → String → Prop) : Prop where
  word : Lexer.continuesWord d = false
  point : d ≠ '.'
  star : d ≠ '*'
  symbol : ∀ c cs ds, (Lexer.symbol c cs).Sound → P (Lexer.symbol c cs).kind (Lexer.symbol c cs).lexeme →
    Lexer.symbol c (cs ++ d :: ds) = (Lexer.symbol c cs).behind (d :: ds)

section

variable {d : Char} {P : TokenKind → String → Prop} (hd : Boundary d P) (ds : List Char)

include hd

theorem Boundary.not_isDigit : isDigit d = false := by
  have hword := hd.word
  simp only [Lexer.continuesWord, Bool.or_eq_false_iff] at hword
  exact hword.1.1.2

theorem exponent_append {kind : TokenKind} {span cs : List Char} (h : (Lexer.exponent kind span cs).Sound) :
    Lexer.exponent kind span (cs ++ d :: ds) = (Lexer.exponent kind span cs).behind (d :: ds) := by
  cases cs with
  | nil =>
    have hnone : ¬ (d = 'e' ∨ d = 'E') := by
      rintro (rfl | rfl) <;> exact absurd hd.word (by decide)
    simp only [List.nil_append, Lexer.exponent, hnone, if_false]
    rfl
  | cons e cs =>
    simp only [List.cons_append, Lexer.exponent] at h ⊢
    split at h
    next he =>
      rw [if_pos he, if_pos he]
      cases cs with
      | nil => exact absurd h Scan.not_sound_malformed
      | cons c cs =>
        have hle : (((c :: cs).take 1).takeWhile fun c => c == '+' || c == '-').length ≤ (c :: cs).length :=
          ((List.takeWhile_prefix _).trans (List.take_prefix 1 (c :: cs))).length_le
        have hsign : (c :: cs ++ d :: ds).take 1 = (c :: cs).take 1 := rfl
        rw [hsign, List.drop_append_of_le_length hle]
        generalize ((c :: cs).take 1).takeWhile (fun c => c == '+' || c == '-') = sign at h ⊢
        obtain ⟨htake, hdrop⟩ :=
          takeWhile_append_cons hd.not_isDigit ((c :: cs).drop sign.length) ds
        rw [htake, hdrop]
        split at h
        · exact absurd h Scan.not_sound_malformed
        next hdigits =>
          rw [if_neg hdigits, if_neg hdigits]
          rfl
    next he =>
      rw [if_neg he, if_neg he]
      rfl

omit hd in
theorem number_point {cs rest : List Char} (h : cs.dropWhile isDigit = '.' :: rest) :
    Lexer.number cs =
      if (rest.takeWhile isDigit).isEmpty then
        .malformed "expected a digit after '.'" (cs.takeWhile isDigit ++ ['.']) rest
      else Lexer.exponent .float (cs.takeWhile isDigit ++ '.' :: rest.takeWhile isDigit)
        (rest.dropWhile isDigit) := by
  rw [Lexer.number, h]
  rfl

omit hd in
theorem number_whole {cs : List Char} (h : ∀ rest, cs.dropWhile isDigit ≠ '.' :: rest) :
    Lexer.number cs = Lexer.exponent .int (cs.takeWhile isDigit) (cs.dropWhile isDigit) := by
  rw [Lexer.number]
  split
  next rest hrest => exact absurd hrest (h rest)
  next => rfl

theorem number_append {cs : List Char} (h : (Lexer.number cs).Sound) :
    Lexer.number (cs ++ d :: ds) = (Lexer.number cs).behind (d :: ds) := by
  have hdigit := hd.not_isDigit
  obtain ⟨htake, hdrop⟩ := takeWhile_append_cons hdigit cs ds
  by_cases hpoint : ∃ rest, cs.dropWhile isDigit = '.' :: rest
  · obtain ⟨rest, hrest⟩ := hpoint
    obtain ⟨htake', hdrop'⟩ := takeWhile_append_cons hdigit rest ds
    rw [number_point hrest] at h ⊢
    rw [hrest, List.cons_append] at hdrop
    rw [number_point hdrop, htake, htake', hdrop']
    split at h
    · exact absurd h Scan.not_sound_malformed
    next hdigits =>
      rw [if_neg hdigits, if_neg hdigits]
      exact exponent_append hd ds h
  · rw [not_exists] at hpoint
    have hpoint' : ∀ rest, (cs ++ d :: ds).dropWhile isDigit ≠ '.' :: rest := by
      intro rest hrest
      rw [hdrop] at hrest
      cases hleft : cs.dropWhile isDigit with
      | nil =>
        rw [hleft] at hrest
        exact hd.point (List.cons.inj hrest).1
      | cons e es =>
        rw [hleft] at hrest
        exact hpoint es (hleft.trans (congrArg (· :: es) (List.cons.inj hrest).1))
    rw [number_whole hpoint] at h ⊢
    rw [number_whole hpoint', htake, hdrop]
    exact exponent_append hd ds h

theorem word_append (cs : List Char) :
    Lexer.word (cs ++ d :: ds) = (Lexer.word cs).behind (d :: ds) := by
  obtain ⟨htake, hdrop⟩ := takeWhile_append_cons hd.word cs ds
  rw [Lexer.word, Lexer.word, htake, hdrop]
  rfl

omit hd in
/-- A text without a character does not reach over it. -/
theorem isPrefixOf_append {s : List Char} (hs : ∀ c ∈ s, c ≠ d) (cs : List Char) :
    s.isPrefixOf (cs ++ d :: ds) = s.isPrefixOf cs := by
  induction s generalizing cs with
  | nil => rfl
  | cons c s ih =>
    obtain ⟨hc, hs⟩ := List.forall_mem_cons.mp hs
    cases cs with
    | nil => simp [List.isPrefixOf, hc]
    | cons e es => simp [List.isPrefixOf, ih hs es]

omit hd in
/-- A symbol is cut the same way if the same symbols fit. -/
theorem symbol_append {c : Char} {cs : List Char} (h : (Lexer.symbol c cs).Sound)
    (hfits : ∀ s ∈ symbols, s.toList.isPrefixOf (c :: cs ++ d :: ds) = s.toList.isPrefixOf (c :: cs)) :
    Lexer.symbol c (cs ++ d :: ds) = (Lexer.symbol c cs).behind (d :: ds) := by
  have hfind : symbols.find? (fun s => s.toList.isPrefixOf (c :: (cs ++ d :: ds))) =
      symbols.find? (fun s => s.toList.isPrefixOf (c :: cs)) := by
    rw [← List.head?_filter, ← List.head?_filter]
    exact congrArg List.head? (List.filter_congr hfits)
  unfold Lexer.symbol at h ⊢
  rw [hfind]
  split at h
  next s hs =>
    have hprefix : s.toList <+: c :: cs := List.isPrefixOf_iff_prefix.mp (by simpa using List.find?_some hs)
    have hlength : s.length ≤ (c :: cs).length := by
      rw [← String.length_toList]
      exact hprefix.length_le
    rw [← List.cons_append, List.drop_append_of_le_length hlength]
    rfl
  next => exact absurd h Scan.not_sound_malformed

omit hd in
/-- A scanner that chooses goes on alike if what it chooses does. -/
theorem ite_behind {Q : Scan → Prop} {p : Prop} [Decidable p] {s t s' t' : Scan} {more : List Char}
    (h : Q (if p then s else t)) (hs : p → Q s → s' = s.behind more)
    (ht : ¬ p → Q t → t' = t.behind more) :
    (if p then s' else t') = (if p then s else t).behind more := by
  split at h
  next hp => rw [if_pos hp, if_pos hp, hs hp h]
  next hp => rw [if_neg hp, if_neg hp, ht hp h]

/-- A scanned token that is not malformed, and of which a boundary is the end. -/
def Scan.Ends (P : TokenKind → String → Prop) (s : Scan) : Prop := s.Sound ∧ P s.kind s.lexeme

/-- Such a token is cut the same way in front of the boundary. -/
theorem scan_append {c : Char} {cs : List Char} (h : (Lexer.scan c cs).Ends P) :
    Lexer.scan c (cs ++ d :: ds) = (Lexer.scan c cs).behind (d :: ds) := by
  have hstar : (cs ++ d :: ds).head? = some '*' ↔ cs.head? = some '*' := by
    cases cs with
    | nil => simp [hd.star]
    | cons e es => simp
  unfold Lexer.scan at h ⊢
  -- The choice of a scanner looks at the character behind `(`, and at none that is further off.
  simp only [hstar]
  refine ite_behind h (fun hopen h => ?_) fun _ h => ite_behind h (fun _ h => string_append h.1 _)
    fun _ h => ite_behind h (fun _ h => char_append h.1 _) fun _ h =>
      ite_behind h (fun _ h => backtick_append h.1 _) fun _ h =>
        ite_behind h (fun _ h => number_append hd ds h.1) fun _ h =>
          ite_behind h (fun _ _ => word_append hd ds (c :: cs)) fun _ h => hd.symbol c cs ds h.1 h.2
  cases cs with
  | nil => cases hopen.2
  | cons e es => exact comment_append h.1 _

end

/-- A blank ends every token. -/
theorem isBlank.boundary {d : Char} (hd : isBlank d = true) : Boundary d fun _ _ => True where
  word := isBlank.not_continuesWord hd
  point := isBlank.ne hd (by decide)
  star := isBlank.ne hd (by decide)
  symbol c cs ds h _ := by
    have hplain : symbols.all (fun s => s.toList.all fun c => isBlank c == false) = true := by decide
    refine symbol_append ds h fun s hs => isPrefixOf_append ds (fun c hc => ?_) _
    have hc : isBlank c = false :=
      beq_iff_eq.mp (List.all_eq_true.mp (List.all_eq_true.mp hplain s hs) c hc)
    exact (isBlank.ne hd hc).symm

/-- A semicolon ends every token but a semicolon. -/
theorem boundary_semicolon : Boundary ';' fun k s => ¬ (k = .delimiter ∧ s = ";") where
  word := by decide
  point := by decide
  star := by decide
  symbol c cs ds h hP := by
    by_cases hc : c = ';'
    · subst hc
      -- A second semicolon follows the first, as the two are no token otherwise.
      cases cs with
      | nil => exact absurd ⟨rfl, rfl⟩ hP
      | cons e es =>
        by_cases he : e = ';'
        · subst he
          rfl
        · have hsingle : Lexer.symbol ';' (e :: es) = ⟨.delimiter, ";", none, [';'], e :: es⟩ := by
            simp [Lexer.symbol, symbols, List.isPrefixOf, Ne.symm he, Lexer.symbolKind, delimiters]
            rfl
          rw [hsingle] at hP
          exact absurd ⟨rfl, rfl⟩ hP
    · have hplain : symbols.all (fun s => s.toList.all (· != ';') || s.toList.head? == some ';') = true := by decide
      refine symbol_append ds h fun s hs => ?_
      have hs := List.all_eq_true.mp hplain s hs
      simp only [Bool.or_eq_true, List.all_eq_true, bne_iff_ne, beq_iff_eq] at hs
      rcases hs with hs | hs
      · exact isPrefixOf_append ds hs _
      · obtain ⟨es, hes⟩ := List.head?_eq_some_iff.mp hs
        have hne : (';' == c) = false := beq_false_of_ne (Ne.symm hc)
        simp [hes, List.isPrefixOf, hne]

/-! ## Whole texts -/

namespace Lexer

theorem tokens_ne_nil (pos : Pos) (cs : List Char) : tokens pos cs ≠ [] := by
  induction cs using text_induction generalizing pos with
  | nil => exact List.cons_ne_nil _ _
  | blank c cs hc ih =>
    rw [tokens_blank hc]
    exact ih _
  | scan c cs hc ih =>
    rw [tokens_scan hc]
    exact List.cons_ne_nil _ _

/-- The tokens of a text that starts at `pos`, without the end of input. -/
def body (pos : Pos) (cs : List Char) : List Token := (tokens pos cs).dropLast

@[simp] theorem body_nil (pos : Pos) : body pos [] = [] := rfl

theorem body_blank {c : Char} (hc : isBlank c = true) (pos : Pos) (cs : List Char) :
    body pos (c :: cs) = body (pos.step c) cs := by
  rw [body, tokens_blank hc, body]

theorem body_scan {c : Char} (hc : isBlank c = false) (pos : Pos) (cs : List Char) :
    body pos (c :: cs) =
      (scan c cs).token pos :: body (pos.after (scan c cs).span) (scan c cs).rest := by
  rw [body, tokens_scan hc, List.dropLast_cons_of_ne_nil (tokens_ne_nil _ _), body]

/-- The tokens of a text are followed by one end of input, at the end of the text. -/
theorem tokens_eq_body (pos : Pos) (cs : List Char) :
    tokens pos cs = body pos cs ++ [⟨.endOfInput, "", pos.after cs, none⟩] := by
  induction cs using text_induction generalizing pos with
  | nil => rfl
  | blank c cs hc ih => rw [tokens_blank hc, body_blank hc, ih, Pos.after_cons]
  | scan c cs hc ih =>
    rw [tokens_scan hc, body_scan hc, ih, ← Pos.after_append, (scan_cutFrom c cs).whole, List.cons_append]

theorem body_lexed (pos : Pos) (cs : List Char) : ∀ t ∈ body pos cs, Lexed t := by
  induction cs using text_induction generalizing pos with
  | nil => exact List.forall_mem_nil _
  | blank c cs hc ih =>
    rw [body_blank hc]
    exact ih _
  | scan c cs hc ih =>
    rw [body_scan hc]
    exact List.forall_mem_cons.mpr ⟨⟨c, cs, hc, rfl⟩, ih _⟩

/-- In front of a boundary a text is cut as it is on its own, and what is behind as it is at its place. -/
theorem body_append {d : Char} {P : TokenKind → String → Prop} (hd : Boundary d P) {pos : Pos}
    {cs : List Char} (h : ∀ t ∈ body pos cs, t.kind ≠ .error ∧ P t.kind t.lexeme) (ds : List Char) :
    body pos (cs ++ d :: ds) = body pos cs ++ body (pos.after cs) (d :: ds) := by
  induction cs using text_induction generalizing pos with
  | nil => rfl
  | blank c cs hc ih =>
    rw [body_blank hc] at h ⊢
    rw [List.cons_append, body_blank hc, ih h]
    rfl
  | scan c cs hc ih =>
    rw [body_scan hc] at h ⊢
    obtain ⟨hends, h⟩ := List.forall_mem_cons.mp h
    -- The induction goes on where the first token ends; what is left of it and of the text starts there.
    have hplace : pos.after (c :: cs) = (pos.after (scan c cs).span).after (scan c cs).rest := by
      rw [← (scan_cutFrom c cs).whole, Pos.after_append]
    rw [hplace, List.cons_append, body_scan hc, scan_append hd ds hends]
    exact congrArg _ (ih h)

/-- In front of a blank a text is cut as it is on its own, and the text behind the blank as it is at its
place. -/
theorem body_append_blank {pos : Pos} {cs : List Char} (h : ∀ t ∈ body pos cs, t.kind ≠ .error) {d : Char}
    (hd : isBlank d = true) (ds : List Char) :
    body pos (cs ++ d :: ds) = body pos cs ++ body (pos.after (cs ++ [d])) ds := by
  rw [body_append (isBlank.boundary hd) (fun t ht => ⟨h t ht, trivial⟩), body_blank hd, Pos.after_append]
  rfl

/-- Blanks in front of a text only move it. -/
theorem tokens_blanks {ws : List Char} (h : ∀ c ∈ ws, isBlank c = true) (pos : Pos) (cs : List Char) :
    tokens pos (ws ++ cs) = tokens (pos.after ws) cs := by
  induction ws generalizing pos with
  | nil => rfl
  | cons c ws ih =>
    obtain ⟨hc, hws⟩ := List.forall_mem_cons.mp h
    rw [List.cons_append, tokens_blank hc, ih hws, Pos.after_cons]

end Lexer

/-- A text is cut into its body and one end of input. -/
theorem tokenize_eq_body (source : String) :
    tokenize source =
      Lexer.body .first source.toList ++ [⟨.endOfInput, "", Pos.first.after source.toList, none⟩] :=
  (tokenize_eq_tokens source).trans (Lexer.tokens_eq_body ..)

end Camlet
