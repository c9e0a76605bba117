import Camlet.Proofs.Blanks

/-
  What ends a token. What stands behind a token only decides where it ends: a scanner that stops within a text
  comes to the same, malformed or not, if nothing is left behind the text, and also if a space stands there in
  the place of an opening bracket.

  Each scanner looks ahead in its own way, so there is one lemma for each. Its hypothesis is that the scanner
  leaves all that stands behind the text, and something of the text perhaps; the cases in which it would have
  read on are excluded by length.
-/

namespace Camlet

open Text (isBlank isDigit)

/-- Whatever ends in front of the first text ends in front of the second as well: there is nothing, or a space
in the place of a bracket. -/
inductive EndsToo : List Char → List Char → Prop
  | nothing (more : List Char) : EndsToo more []
  | space (ds es : List Char) : EndsToo ('(' :: ds) (' ' :: es)

/-- The same scan with something else left behind. -/
def Scan.leaving (s : Scan) (rest : List Char) : Scan := { s with rest := rest }

/-- What reaches into the text behind does not leave all of it. -/
theorem ne_append_of_length_lt {rest r more : List Char} (h : rest.length < more.length) : rest ≠ r ++ more := by
  rintro rfl
  rw [List.length_append] at h
  omega

theorem ne_append_of_suffix {d : Char} {rest r ds : List Char} (h : rest <:+ ds) : rest ≠ r ++ d :: ds :=
  ne_append_of_length_lt (Nat.lt_succ_of_le h.length_le)

/-- What is left later was left before. -/
theorem exists_append_of_suffix {left r more : List Char} (h : r ++ more <:+ left) : ∃ r', left = r' ++ more := by
  obtain ⟨t, rfl⟩ := h
  exact ⟨t ++ r, (List.append_assoc ..).symm⟩

/-- Nothing is taken if all is left. -/
theorem eq_nil_of_append_rest {span rest r more : List Char} (hwhole : span ++ rest = more)
    (h : rest = r ++ more) : span = [] ∧ r = [] := by
  subst h
  have hlength := congrArg List.length hwhole
  simp only [List.length_append] at hlength
  exact ⟨List.eq_nil_of_length_eq_zero (by omega), List.eq_nil_of_length_eq_zero (by omega)⟩

theorem takeWhile_leaving {p : Char → Bool} {more more' cs r : List Char} (hp : ∀ d ∈ more'.head?, p d = false)
    (h : (cs ++ more).dropWhile p = r ++ more) :
    (cs ++ more').takeWhile p = (cs ++ more).takeWhile p ∧ (cs ++ more').dropWhile p = r ++ more' := by
  induction cs with
  | nil =>
    obtain ⟨htake, rfl⟩ := eq_nil_of_append_rest List.takeWhile_append_dropWhile h
    simp only [List.nil_append] at htake ⊢
    rw [htake]
    cases more' with
    | nil => exact ⟨rfl, rfl⟩
    | cons d ds => simp [hp d rfl]
  | cons c cs ih =>
    by_cases hc : p c = true
    · simp_all
    · rw [List.cons_append, List.dropWhile_cons_of_neg hc] at h
      obtain rfl : c :: cs = r := List.append_cancel_right h
      simp [hc]

theorem takeWhile_leaving_of_isEmpty {p : Char → Bool} {more more' cs : List Char}
    (hp : ∀ d ∈ more'.head?, p d = false) (h : ((cs ++ more).takeWhile p).isEmpty = true) :
    (cs ++ more').takeWhile p = (cs ++ more).takeWhile p := by
  have hwhole := List.takeWhile_append_dropWhile (p := p) (l := cs ++ more)
  rw [List.isEmpty_iff.mp h] at hwhole
  exact (takeWhile_leaving hp hwhole).1

/-- What closes a comment is of two characters. -/
theorem commentBody_rest_length {depth : Nat} {cs body rest : List Char}
    (h : Lexer.commentBody depth cs = some (body, rest)) : rest.length + 2 ≤ cs.length := by
  induction depth, cs using Lexer.commentBody.induct generalizing body with
  | case1 depth cs ih | case3 depth cs ih =>
    simp only [Lexer.commentBody, Option.map_eq_some_iff] at h
    obtain ⟨⟨inner, left⟩, hinner, heq⟩ := h
    obtain ⟨rfl, rfl⟩ := Prod.mk.inj heq
    exact Nat.le_succ_of_le (Nat.le_succ_of_le (ih hinner))
  | case2 cs =>
    simp only [Lexer.commentBody, Option.some.injEq, Prod.mk.injEq] at h
    obtain ⟨rfl, rfl⟩ := h
    exact Nat.le_refl _
  | case4 depth c cs hopen hclose₀ hclose ih =>
    rw [Lexer.commentBody.eq_4 _ _ _ hopen hclose₀ hclose, Option.map_eq_some_iff] at h
    obtain ⟨⟨inner, left⟩, hinner, heq⟩ := h
    obtain ⟨rfl, rfl⟩ := Prod.mk.inj heq
    exact Nat.le_succ_of_le (ih hinner)
  | case5 depth => cases depth <;> cases h

theorem comment_rest_suffix (cs : List Char) : (Lexer.comment cs).rest <:+ cs := by
  unfold Lexer.comment
  split
  next body rest hbody => exact ⟨body, commentBody_whole hbody⟩
  next => exact List.nil_suffix

theorem charEnd_rest_suffix (value : Char) (span cs : List Char) :
    (Lexer.charEnd value span cs).rest <:+ cs := by
  rw [Lexer.charEnd.eq_def]
  split
  · exact List.suffix_cons ..
  · exact List.suffix_rfl

/-- A character without a meaning of its own is the whole inside of a literal. -/
theorem char_plain {c : Char} (hquote : c ≠ '\'') (hescape : c ≠ '\\') (hline : c ≠ '\n') (cs : List Char) :
    Lexer.char (c :: cs) = Lexer.charEnd c ['\'', c] cs :=
  Lexer.char.eq_5 c cs hquote (fun _ _ hc => absurd hc hescape) (fun hc => absurd hc hescape) hline

/-- A character literal takes what stands behind its quote, a line break apart. -/
theorem char_rest_suffix {c : Char} (hc : c ≠ '\n') (cs : List Char) : (Lexer.char (c :: cs)).rest <:+ cs := by
  by_cases hquote : c = '\''
  · subst hquote
    exact List.suffix_rfl
  by_cases hescape : c = '\\'
  · subst hescape
    cases cs with
    | nil => exact List.suffix_rfl
    | cons d ds => exact (charEnd_rest_suffix ..).trans (List.suffix_cons ..)
  · rw [char_plain hquote hescape hc]
    exact charEnd_rest_suffix ..

theorem exponent_marked_suffix {kind : TokenKind} {span : List Char} {e : Char} (he : e = 'e' ∨ e = 'E')
    (cs : List Char) : (Lexer.exponent kind span (e :: cs)).rest <:+ cs := by
  rw [Lexer.exponent, if_pos he]
  dsimp only
  split
  · exact List.drop_suffix ..
  · exact (List.dropWhile_suffix _).trans (List.drop_suffix ..)

theorem exponent_rest_suffix (kind : TokenKind) (span cs : List Char) :
    (Lexer.exponent kind span cs).rest <:+ cs := by
  cases cs with
  | nil => exact List.suffix_rfl
  | cons e cs =>
    by_cases he : e = 'e' ∨ e = 'E'
    · exact (exponent_marked_suffix he cs).trans (List.suffix_cons ..)
    · rw [Lexer.exponent, if_neg he]
      exact List.suffix_rfl

/-- A point that is met is taken. -/
theorem number_point_suffix {cs rest : List Char} (h : cs.dropWhile isDigit = '.' :: rest) :
    (Lexer.number cs).rest <:+ rest := by
  rw [number_point h]
  split
  · exact List.suffix_rfl
  · exact (exponent_rest_suffix ..).trans (List.dropWhile_suffix _)

theorem number_rest_suffix (cs : List Char) : (Lexer.number cs).rest <:+ cs.dropWhile isDigit := by
  by_cases hpoint : ∃ rest, cs.dropWhile isDigit = '.' :: rest
  · obtain ⟨rest, hrest⟩ := hpoint
    rw [hrest]
    exact (number_point_suffix hrest).trans (List.suffix_cons ..)
  · rw [number_whole (not_exists.mp hpoint)]
    exact exponent_rest_suffix ..

section

variable {more more' : List Char} (hends : EndsToo more more')

include hends

theorem EndsToo.head {p : Char → Bool} (hp : p ' ' = false) : ∀ d ∈ more'.head?, p d = false := by
  cases hends with
  | nothing => exact nofun
  | space ds es =>
    rintro d hd
    cases hd
    exact hp

theorem EndsToo.eq_nil (h : more = []) : more' = [] := by
  subst h
  cases hends
  rfl

omit hends in
/-- A comment that closes in front of a text closes without it. -/
theorem commentBody_of_append {depth : Nat} {cs body r : List Char}
    (h : Lexer.commentBody depth (cs ++ more) = some (body, r ++ more)) :
    Lexer.commentBody depth cs = some (body, r) := by
  induction depth, cs using Lexer.commentBody.induct generalizing body with
  | case1 depth cs ih | case3 depth cs ih =>
    simp only [List.cons_append, Lexer.commentBody, Option.map_eq_some_iff] at h ⊢
    obtain ⟨⟨inner, left⟩, hinner, heq⟩ := h
    obtain ⟨rfl, rfl⟩ := Prod.mk.inj heq
    exact ⟨_, ih hinner, rfl⟩
  | case2 cs =>
    simp only [List.cons_append, Lexer.commentBody, Option.some.injEq, Prod.mk.injEq] at h ⊢
    exact ⟨h.1, List.append_cancel_right h.2⟩
  | case4 depth c cs hopen hclose₀ hclose ih =>
    -- The next character decides the rule, and the text behind is left, so that character is there already.
    cases cs with
    | nil =>
      have hlength := commentBody_rest_length h
      simp only [List.length_append, List.length_cons, List.length_nil] at hlength
      omega
    | cons e es =>
      rw [commentBody_plain_append hopen hclose₀ hclose, Option.map_eq_some_iff] at h
      obtain ⟨⟨inner, left⟩, hinner, heq⟩ := h
      obtain ⟨rfl, rfl⟩ := Prod.mk.inj heq
      rw [Lexer.commentBody.eq_4 _ _ _ hopen hclose₀ hclose, ih hinner]
      rfl
  | case5 depth =>
    have hlength := commentBody_rest_length h
    simp only [List.length_append, List.length_nil] at hlength
    omega

theorem comment_leaving {cs r : List Char} (h : (Lexer.comment (cs ++ more)).rest = r ++ more) :
    Lexer.comment (cs ++ more') = (Lexer.comment (cs ++ more)).leaving (r ++ more') := by
  unfold Lexer.comment at h ⊢
  cases hbody : Lexer.commentBody 0 (cs ++ more) with
  | some found =>
    obtain ⟨body, rest⟩ := found
    rw [hbody] at h
    obtain rfl : rest = r ++ more := h
    rw [commentBody_append more' (commentBody_of_append hbody)]
    rfl
  | none =>
    -- The comment reaches to the end, so there is nothing behind the text.
    rw [hbody] at h
    obtain ⟨rfl, hmore⟩ := List.append_eq_nil_iff.mp h.symm
    obtain rfl := hends.eq_nil hmore
    subst hmore
    rw [hbody]
    rfl

theorem stringBody_leaving (cs : List Char) {r : List Char} (h : (Lexer.stringBody (cs ++ more)).2.2 = r ++ more) :
    Lexer.stringBody (cs ++ more') =
      ((Lexer.stringBody (cs ++ more)).1, (Lexer.stringBody (cs ++ more)).2.1, r ++ more') := by
  induction cs using Lexer.stringBody.induct generalizing r with
  | case1 =>
    -- Nothing of the text behind is covered, so the line or the whole text ends there.
    obtain ⟨hspan, rfl⟩ := eq_nil_of_append_rest (stringBody_whole ([] ++ more)).1 h
    simp only [List.nil_append] at h hspan ⊢
    rw [hspan]
    cases hends with
    | nothing =>
      rw [Lexer.stringBody.eq_def] at hspan ⊢
      split at hspan <;> first | rfl | cases hspan
    | space ds es => cases hspan
  | case2 cs =>
    obtain rfl : cs = r := List.append_cancel_right h
    rfl
  | case3 cs =>
    obtain rfl : '\n' :: cs = r := List.append_cancel_right h
    rfl
  | case4 =>
    cases more with
    | nil =>
      obtain rfl := hends.eq_nil rfl
      rw [← h]
    | cons d ds =>
      have hrest : (Lexer.stringBody ds).2.2 <:+ ds := ⟨_, (stringBody_whole ds).1⟩
      exact absurd h (ne_append_of_suffix hrest)
  | case5 c cs value span rest heq ih =>
    simp only [List.cons_append, Lexer.stringBody] at h ⊢
    rw [ih h]
  | case6 c cs hquote hline hescape₁ hescape value span rest heq ih =>
    have hbackslash : c ≠ '\\' := by
      rintro rfl
      cases cs with
      | nil => exact hescape₁ rfl rfl
      | cons d ds => exact hescape d ds rfl rfl
    have hstep := fun ds => Lexer.stringBody.eq_6 c ds hquote hline (fun hc => absurd hc hbackslash)
      (fun _ _ hc => absurd hc hbackslash)
    simp only [List.cons_append, hstep] at h ⊢
    rw [ih h]

theorem string_leaving {cs r : List Char} (h : (Lexer.string (cs ++ more)).rest = r ++ more) :
    Lexer.string (cs ++ more') = (Lexer.string (cs ++ more)).leaving (r ++ more') := by
  unfold Lexer.string at h ⊢
  have hbody := stringBody_leaving hends cs (r := r)
  generalize Lexer.stringBody (cs ++ more) = body at h hbody ⊢
  obtain ⟨value | value, span, rest⟩ := body <;>
  · rw [hbody h]
    rfl

theorem charEnd_leaving {value : Char} {span cs r : List Char}
    (h : (Lexer.charEnd value span (cs ++ more)).rest = r ++ more) :
    Lexer.charEnd value span (cs ++ more') = (Lexer.charEnd value span (cs ++ more)).leaving (r ++ more') := by
  cases cs with
  | nil =>
    by_cases hquote : ∃ ds, more = '\'' :: ds
    · obtain ⟨ds, rfl⟩ := hquote
      exact absurd h (ne_append_of_suffix List.suffix_rfl)
    · rw [List.nil_append] at h
      rw [List.nil_append, List.nil_append]
      rw [Lexer.charEnd.eq_2 _ _ _ fun ds hds => hquote ⟨ds, hds⟩] at h ⊢
      obtain rfl : [] = r := List.append_cancel_right h
      cases hends <;> rfl
  | cons c cs =>
    by_cases hc : c = '\''
    · subst hc
      obtain rfl : cs = r := List.append_cancel_right h
      rfl
    · have hstep := fun ds => Lexer.charEnd.eq_2 value span (c :: ds) fun _ heq => hc (List.cons.inj heq).1
      simp only [List.cons_append, hstep] at h ⊢
      obtain rfl : c :: cs = r := List.append_cancel_right h
      rfl

theorem char_leaving {cs r : List Char} (h : (Lexer.char (cs ++ more)).rest = r ++ more) :
    Lexer.char (cs ++ more') = (Lexer.char (cs ++ more)).leaving (r ++ more') := by
  cases cs with
  | nil =>
    cases more with
    | nil =>
      obtain rfl := hends.eq_nil rfl
      obtain rfl : [] = r := List.append_cancel_right h
      rfl
    | cons d ds =>
      by_cases hline : d = '\n'
      · subst hline
        obtain rfl : [] = r := List.append_cancel_right h
        cases hends
        rfl
      · exact absurd h (ne_append_of_suffix (char_rest_suffix hline ds))
  | cons c cs =>
    by_cases hquote : c = '\''
    · subst hquote
      obtain rfl : cs = r := List.append_cancel_right h
      rfl
    by_cases hline : c = '\n'
    · subst hline
      obtain rfl : '\n' :: cs = r := List.append_cancel_right h
      rfl
    by_cases hescape : c = '\\'
    · subst hescape
      cases cs with
      | nil =>
        cases more with
        | nil =>
          obtain rfl := hends.eq_nil rfl
          obtain rfl : [] = r := List.append_cancel_right h
          rfl
        | cons d ds =>
          exact absurd h (ne_append_of_suffix (charEnd_rest_suffix ..))
      | cons d ds => exact charEnd_leaving hends h
    · have hplain := char_plain hquote hescape hline
      simp only [List.cons_append, hplain] at h ⊢
      exact charEnd_leaving hends h

theorem backtick_leaving {cs r : List Char} (h : (Lexer.backtick (cs ++ more)).rest = r ++ more) :
    Lexer.backtick (cs ++ more') = (Lexer.backtick (cs ++ more)).leaving (r ++ more') := by
  unfold Lexer.backtick at h ⊢
  cases hleft : cs.dropWhile (· ≠ '\x60') with
  | nil =>
    -- No backtick in the text closes the name, so nothing is left of the text behind.
    have hnone : ∀ ds, (cs ++ ds).dropWhile (· ≠ '\x60') = ds.dropWhile (· ≠ '\x60') := fun ds => by
      rw [List.dropWhile_append, hleft, List.isEmpty_nil, if_pos rfl]
    simp only [hnone] at h ⊢
    cases hclose : more.dropWhile (· ≠ '\x60') with
    | nil =>
      rw [hclose] at h
      obtain ⟨rfl, rfl⟩ := List.append_eq_nil_iff.mp h.symm
      obtain rfl := hends.eq_nil rfl
      rfl
    | cons c rest =>
      have hrest : rest.length < more.length := by
        have hlength := (List.dropWhile_suffix (· ≠ '\x60') (l := more)).length_le
        rwa [hclose] at hlength
      rw [hclose] at h
      dsimp only at h
      split at h <;> exact absurd h (ne_append_of_length_lt hrest)
  | cons c rest =>
    obtain ⟨htake, hdrop⟩ := takeWhile_append_left hleft more
    obtain ⟨htake', hdrop'⟩ := takeWhile_append_left hleft more'
    rw [htake, hdrop] at h ⊢
    rw [htake', hdrop']
    dsimp only [List.cons_append] at h ⊢
    split at h
    next hname =>
      rw [if_pos hname, if_pos hname]
      obtain rfl : rest = r := List.append_cancel_right h
      rfl
    next hname =>
      rw [if_neg hname, if_neg hname]
      obtain rfl : rest = r := List.append_cancel_right h
      rfl

/-- One character at most is taken as a sign, and it is in the text, if all that is behind is left. -/
theorem sign_leaving {p : Char → Bool} {cs r : List Char} (hp : p ' ' = false)
    (h : r ++ more <:+ (cs ++ more).drop (((cs ++ more).take 1).takeWhile p).length) :
    ((cs ++ more').take 1).takeWhile p = ((cs ++ more).take 1).takeWhile p ∧
      ∃ r', (cs ++ more).drop (((cs ++ more).take 1).takeWhile p).length = r' ++ more ∧
        (cs ++ more').drop (((cs ++ more).take 1).takeWhile p).length = r' ++ more' := by
  cases cs with
  | nil =>
    have hsign : (more.take 1).takeWhile p = [] := by
      cases more with
      | nil => rfl
      | cons d ds =>
        by_cases hd : p d = true
        · refine absurd h.length_le ?_
          simp [hd]
          omega
        · simp [hd]
    have hsign' : (more'.take 1).takeWhile p = [] := by
      cases hends with
      | nothing => rfl
      | space => simp [hp]
    exact ⟨hsign'.trans hsign.symm, [], by simp [hsign], by simp [hsign]⟩
  | cons c cs =>
    by_cases hc : p c = true
    · exact ⟨rfl, cs, by simp [hc], by simp [hc]⟩
    · exact ⟨rfl, c :: cs, by simp [hc], by simp [hc]⟩

theorem exponent_leaving {kind : TokenKind} {span cs r : List Char}
    (h : (Lexer.exponent kind span (cs ++ more)).rest = r ++ more) :
    Lexer.exponent kind span (cs ++ more') = (Lexer.exponent kind span (cs ++ more)).leaving (r ++ more') := by
  cases cs with
  | nil =>
    cases more with
    | nil =>
      obtain rfl := hends.eq_nil rfl
      obtain rfl : [] = r := List.append_cancel_right h
      rfl
    | cons d ds =>
      by_cases hd : d = 'e' ∨ d = 'E'
      · exact absurd h (ne_append_of_suffix (exponent_marked_suffix hd ds))
      · simp only [List.nil_append, Lexer.exponent, if_neg hd] at h ⊢
        obtain rfl : [] = r := List.append_cancel_right h
        cases hends <;> rfl
  | cons e cs =>
    simp only [List.cons_append, Lexer.exponent] at h ⊢
    split at h
    next he =>
      rw [if_pos he, if_pos he]
      have hleft : r ++ more <:+ (cs ++ more).drop
          (((cs ++ more).take 1).takeWhile fun c => c == '+' || c == '-').length := by
        split at h <;> rw [← h]
        · exact List.suffix_rfl
        · exact List.dropWhile_suffix _
      obtain ⟨hsign, left, hdrop, hdrop'⟩ := sign_leaving hends (by decide) hleft
      rw [hdrop] at h
      rw [hsign, hdrop, hdrop']
      have hdigit := hends.head (p := isDigit) (by decide)
      split at h
      next hdigits =>
        obtain rfl : left = r := List.append_cancel_right h
        rw [takeWhile_leaving_of_isEmpty hdigit hdigits, if_pos hdigits, if_pos hdigits]
        rfl
      next hdigits =>
        obtain ⟨htake, hrest⟩ := takeWhile_leaving hdigit h
        rw [htake, hrest, if_neg hdigits, if_neg hdigits]
        rfl
    next he =>
      rw [if_neg he, if_neg he]
      obtain rfl : e :: cs = r := List.append_cancel_right h
      rfl

theorem number_point_leaving {cs es r : List Char} (h : (Lexer.number (cs ++ more)).rest = r ++ more)
    (htake : (cs ++ more').takeWhile isDigit = (cs ++ more).takeWhile isDigit)
    (hleft : (cs ++ more).dropWhile isDigit = '.' :: (es ++ more))
    (hleft' : (cs ++ more').dropWhile isDigit = '.' :: (es ++ more')) :
    Lexer.number (cs ++ more') = (Lexer.number (cs ++ more)).leaving (r ++ more') := by
  have hdigit := hends.head (p := isDigit) (by decide)
  rw [number_point hleft] at h ⊢
  rw [number_point hleft', htake]
  split at h
  next hdigits =>
    obtain rfl : es = r := List.append_cancel_right h
    rw [takeWhile_leaving_of_isEmpty hdigit hdigits, if_pos hdigits, if_pos hdigits]
    rfl
  next hdigits =>
    have hsuffix : r ++ more <:+ (es ++ more).dropWhile isDigit := h ▸ exponent_rest_suffix ..
    obtain ⟨left, hdrop⟩ := exists_append_of_suffix hsuffix
    obtain ⟨htake, hdrop'⟩ := takeWhile_leaving hdigit hdrop
    rw [hdrop] at h ⊢
    rw [htake, hdrop', if_neg hdigits, if_neg hdigits]
    exact exponent_leaving hends h

theorem number_whole_leaving {cs left r : List Char} (h : (Lexer.number (cs ++ more)).rest = r ++ more)
    (htake : (cs ++ more').takeWhile isDigit = (cs ++ more).takeWhile isDigit)
    (hleft : (cs ++ more).dropWhile isDigit = left ++ more)
    (hleft' : (cs ++ more').dropWhile isDigit = left ++ more')
    (hpoint : ∀ rest, left ++ more ≠ '.' :: rest) (hpoint' : ∀ rest, left ++ more' ≠ '.' :: rest) :
    Lexer.number (cs ++ more') = (Lexer.number (cs ++ more)).leaving (r ++ more') := by
  rw [← hleft] at hpoint
  rw [← hleft'] at hpoint'
  rw [number_whole hpoint] at h ⊢
  rw [number_whole hpoint', htake, hleft']
  rw [hleft] at h ⊢
  exact exponent_leaving hends h

theorem number_leaving (cs : List Char) {r : List Char} (h : (Lexer.number (cs ++ more)).rest = r ++ more) :
    Lexer.number (cs ++ more') = (Lexer.number (cs ++ more)).leaving (r ++ more') := by
  have hsuffix : r ++ more <:+ (cs ++ more).dropWhile isDigit := h ▸ number_rest_suffix (cs ++ more)
  obtain ⟨left, hleft⟩ := exists_append_of_suffix hsuffix
  obtain ⟨htake, hleft'⟩ := takeWhile_leaving (hends.head (by decide)) hleft
  cases left with
  | nil =>
    have hpoint : ∀ rest, [] ++ more ≠ '.' :: rest := by
      rintro rest rfl
      -- The point would be taken.
      exact absurd h (ne_append_of_suffix (number_point_suffix hleft))
    have hpoint' : ∀ rest, [] ++ more' ≠ '.' :: rest := by
      cases hends <;> exact nofun
    exact number_whole_leaving hends h htake hleft hleft' hpoint hpoint'
  | cons e es =>
    by_cases hpoint : e = '.'
    · subst hpoint
      exact number_point_leaving hends h htake hleft hleft'
    · have hpoint : ∀ ds rest, e :: es ++ ds ≠ '.' :: rest := fun ds rest heq => hpoint (List.cons.inj heq).1
      exact number_whole_leaving hends h htake hleft hleft' (hpoint more) (hpoint more')

theorem word_leaving (cs : List Char) {r : List Char} (h : (Lexer.word (cs ++ more)).rest = r ++ more) :
    Lexer.word (cs ++ more') = (Lexer.word (cs ++ more)).leaving (r ++ more') := by
  obtain ⟨htake, hdrop⟩ := takeWhile_leaving (hends.head (by decide)) h
  rw [Lexer.word, Lexer.word, htake, hdrop]
  rfl

/-- A symbol that fits with the second text behind fits without it. -/
theorem EndsToo.prefix_of_append {s cs : List Char} (hs : ' ' ∉ s) (h : s <+: cs ++ more') : s <+: cs := by
  cases hends with
  | nothing => rwa [List.append_nil] at h
  | space ds es =>
    have hplain : ∀ c ∈ s, c ≠ ' ' := fun c hc heq => hs (heq ▸ hc)
    rwa [← List.isPrefixOf_iff_prefix, isPrefixOf_append es hplain, List.isPrefixOf_iff_prefix] at h

theorem symbol_leaving {c : Char} {cs r : List Char} (h : (Lexer.symbol c (cs ++ more)).rest = r ++ more) :
    Lexer.symbol c (cs ++ more') = (Lexer.symbol c (cs ++ more)).leaving (r ++ more') := by
  have hplain : ∀ s ∈ symbols, ' ' ∉ s.toList := by decide
  -- A symbol that fits with the second text behind fits with the first as well.
  have hfewer : ∀ s ∈ symbols, s.toList <+: c :: (cs ++ more') → s.toList <+: c :: (cs ++ more) := by
    intro s hs hfits
    rw [← List.cons_append] at hfits ⊢
    exact (hends.prefix_of_append (hplain s hs) hfits).trans (List.prefix_append ..)
  unfold Lexer.symbol at h ⊢
  cases hfind : symbols.find? fun s => s.toList.isPrefixOf (c :: (cs ++ more)) with
  | some s =>
    rw [hfind] at h
    obtain ⟨hfits, before, after, hsymbols, hbefore⟩ := List.find?_eq_some_iff_append.mp hfind
    rw [List.isPrefixOf_iff_prefix, ← List.cons_append] at hfits
    -- The symbol is in the text, as all that is behind is left.
    have hlength : s.toList.length ≤ (c :: cs).length := by
      have hfits := hfits.length_le
      have hleft := congrArg List.length h
      simp only [List.length_drop, List.length_append, List.length_cons, String.length_toList] at hfits hleft ⊢
      omega
    have hwithin : s.toList <+: c :: cs := List.prefix_of_prefix_length_le hfits (List.prefix_append ..) hlength
    have hfind' : symbols.find? (fun s => s.toList.isPrefixOf (c :: (cs ++ more'))) = some s := by
      simp only [List.find?_eq_some_iff_append, Bool.not_eq_true', ← Bool.not_eq_true,
        List.isPrefixOf_iff_prefix] at hbefore ⊢
      exact ⟨hwithin.trans (List.prefix_append ..), before, after, hsymbols, fun t ht hfits =>
        hbefore t ht (hfewer t (hsymbols ▸ List.mem_append_left _ ht) hfits)⟩
    rw [String.length_toList] at hlength
    rw [hfind']
    dsimp only at h ⊢
    rw [← List.cons_append, List.drop_append_of_le_length hlength] at h ⊢
    obtain rfl := List.append_cancel_right h
    rfl
  | none =>
    rw [hfind] at h
    obtain rfl : cs = r := List.append_cancel_right h
    have hfind' : symbols.find? (fun s => s.toList.isPrefixOf (c :: (cs ++ more'))) = none := by
      simp only [List.find?_eq_none, List.isPrefixOf_iff_prefix] at hfind ⊢
      exact fun s hs hfits => hfind s hs (hfewer s hs hfits)
    rw [hfind']
    rfl

omit hends in
/-- A scanner that chooses goes on alike if what it chooses does. -/
theorem ite_leaving {p : Prop} [Decidable p] {s t s' t' : Scan} {rest left : List Char}
    (h : (if p then s else t).rest = left) (hs : p → s.rest = left → s' = s.leaving rest)
    (ht : ¬ p → t.rest = left → t' = t.leaving rest) :
    (if p then s' else t') = (if p then s else t).leaving rest := by
  split at h
  next hp => rw [if_pos hp, if_pos hp, hs hp h]
  next hp => rw [if_neg hp, if_neg hp, ht hp h]

/-- A token that ends within a text ends there too with something else behind. -/
theorem scan_leaving {c : Char} {cs r : List Char} (h : (Lexer.scan c (cs ++ more)).rest = r ++ more) :
    Lexer.scan c (cs ++ more') = (Lexer.scan c (cs ++ more)).leaving (r ++ more') := by
  have hmore : more'.head? ≠ some '*' := by cases hends <;> exact nofun
  -- A comment that opens in the text behind is not left.
  have hopens : (c = '(' ∧ (cs ++ more').head? = some '*') ↔ (c = '(' ∧ (cs ++ more).head? = some '*') := by
    cases cs with
    | nil =>
      refine ⟨fun hopens => absurd hopens.2 hmore, fun hopens => ?_⟩
      cases more with
      | nil => cases hopens.2
      | cons d ds =>
        refine absurd h (ne_append_of_suffix ?_)
        rw [Lexer.scan, if_pos hopens]
        exact comment_rest_suffix ds
    | cons e es => exact Iff.rfl
  unfold Lexer.scan at h ⊢
  simp only [hopens]
  refine ite_leaving h (fun hopen h => ?_) fun _ h => ite_leaving h (fun _ h => string_leaving hends h)
    fun _ h => ite_leaving h (fun _ h => char_leaving hends h) fun _ h =>
      ite_leaving h (fun _ h => backtick_leaving hends h) fun _ h =>
        ite_leaving h (fun _ h => number_leaving hends (c :: cs) h) fun _ h =>
          ite_leaving h (fun _ h => word_leaving hends (c :: cs) h) fun _ h => symbol_leaving hends h
  cases cs with
  | nil => exact absurd (hopens.mpr hopen).2 hmore
  | cons e es => exact comment_leaving hends h

/-- The first token of a text, and what follows it, with something else behind. -/
theorem tokens_leaving {c : Char} {cs r : List Char} (hc : isBlank c = false)
    (h : (Lexer.scan c cs).rest = r ++ more) (pos : Pos) :
    Lexer.tokens pos ((Lexer.scan c cs).span ++ (r ++ more')) =
      (Lexer.scan c cs).token pos :: Lexer.tokens (pos.after (Lexer.scan c cs).span) (r ++ more') := by
  obtain ⟨hwhole, hne, -⟩ := scan_cutFrom c cs
  obtain ⟨d, ds, hspan⟩ := List.exists_cons_of_ne_nil hne
  rw [hspan, h, List.cons_append, ← List.append_assoc] at hwhole
  obtain ⟨rfl, hcs⟩ := List.cons.inj hwhole
  have hscan : Lexer.scan d (ds ++ r ++ more') = (Lexer.scan d cs).leaving (r ++ more') := by
    rw [← hcs] at h ⊢
    exact scan_leaving hends h
  rw [hspan, List.cons_append, ← List.append_assoc, Lexer.tokens_scan hc, hscan, ← hspan]
  rfl

end

end Camlet
