import Camlet.Proofs.Spans
import Camlet.Report.Basic
import Camlet.Typing.Fault

/-
  Quoted lines. The lexer counts lines by `\n` alone, while reports cut the text at every character that ends
  a line. Cutting finds no fewer lines than counting does, so an error at a token is always quoted with some
  line. It is the line of the token if the two agree: if the text in front of the token ends its lines with
  `\n` or with `\r\n`, and nothing else ends a line between the token and the next `\n`.
-/

namespace Camlet

namespace Text

/-- The text from the last `\n` on. -/
def lastLine (cs : List Char) : List Char := (cs.reverse.takeWhile (· ≠ '\n')).reverse

/-- The text up to the first `\n`. -/
def firstLine (cs : List Char) : List Char := cs.takeWhile (· ≠ '\n')

/-- Whether all lines of a text end with `\n` or with `\r\n`. -/
def conventional : List Char → Bool
  | [] => true
  | '\r' :: '\n' :: cs => conventional cs
  | c :: cs => (c == '\n' || !endsLine c) && conventional cs

/-! ## Lines -/

theorem lines_crlf (cs : List Char) : lines ('\r' :: '\n' :: cs) = [] :: lines cs := rfl

/-- A character that ends a line, unless it is the first of `\r\n`. -/
theorem lines_end {c : Char} {cs : List Char} (hne : ∀ ds, c = '\r' → cs = '\n' :: ds → False)
    (hc : endsLine c = true) : lines (c :: cs) = [] :: lines cs := by
  rw [lines.eq_3 _ _ hne, if_pos hc]

theorem lines_inside {c : Char} {cs : List Char} (hc : endsLine c = false) :
    lines (c :: cs) = consLine c (lines cs) := by
  have hne : ∀ ds, c = '\r' → cs = '\n' :: ds → False := by
    rintro ds rfl -
    cases hc
  rw [lines.eq_3 _ _ hne, hc, if_neg Bool.false_ne_true]

/-- Only the first line is different with a character more in front. -/
theorem getElem?_consLine (c : Char) (ls : List (List Char)) (n : Nat) :
    (consLine c ls)[n + 1]? = ls[n + 1]? := by
  cases ls <;> rfl

theorem length_le_consLine (c : Char) (ls : List (List Char)) : ls.length ≤ (consLine c ls).length := by
  cases ls <;> simp [consLine]

theorem endsLine_newline : endsLine '\n' = true := by decide

theorem ne_newline {c : Char} (h : endsLine c = false) : c ≠ '\n' := by
  rintro rfl
  cases h

/-- In front of a character that ends no line, there are at least as many lines as are counted. -/
theorem count_lt_length_lines (before cs : List Char) {c : Char} (hc : endsLine c = false) :
    before.count '\n' < (lines (before ++ c :: cs)).length := by
  induction before using lines.induct with
  | case1 =>
    rw [List.nil_append, lines_inside hc]
    cases lines cs <;> simp [consLine]
  | case2 before ih =>
    simp only [List.cons_append, lines_crlf, List.length_cons, List.count_cons, beq_self_eq_true, if_true]
    simpa using ih
  | case3 d before hne hd ih =>
    have hne' : ∀ ds, d = '\r' → before ++ c :: cs = '\n' :: ds → False := by
      intro ds hcr heq
      cases before with
      | nil => exact ne_newline hc (List.cons.inj heq).1
      | cons b before => exact hne before hcr (congrArg (· :: before) (List.cons.inj heq).1)
    rw [List.cons_append, lines_end hne' hd, List.length_cons, List.count_cons]
    split <;> omega
  | case4 d before _ hd ih =>
    have hd : endsLine d = false := by simpa using hd
    rw [List.cons_append, lines_inside hd, List.count_cons_of_ne (ne_newline hd)]
    exact Nat.lt_of_lt_of_le ih (length_le_consLine ..)

/-! ## The line of a place -/

/-- Reading a text without `\n` backwards goes on to its start. -/
theorem takeWhile_reverse_append {cs : List Char} (h : '\n' ∉ cs) (ds : List Char) :
    (cs.reverse ++ ds).takeWhile (· ≠ '\n') = cs.reverse ++ ds.takeWhile (· ≠ '\n') := by
  refine List.takeWhile_append_of_pos fun c hc => decide_eq_true ?_
  rintro rfl
  exact h (List.mem_reverse.mp hc)

theorem lastLine_of_not_mem {cs : List Char} (h : '\n' ∉ cs) : lastLine cs = cs := by
  have hall := takeWhile_reverse_append h []
  rw [List.append_nil] at hall
  rw [lastLine, hall]
  simp

theorem lastLine_cons_of_mem {c : Char} {cs : List Char} (h : '\n' ∈ cs) : lastLine (c :: cs) = lastLine cs := by
  have hlength : (cs.reverse.takeWhile (· ≠ '\n')).length ≠ cs.reverse.length := by
    intro heq
    have hself := (List.takeWhile_prefix (p := (· ≠ '\n')) (l := cs.reverse)).eq_of_length heq
    have hall := List.all_takeWhile (p := (· ≠ '\n')) (l := cs.reverse)
    rw [hself] at hall
    simpa using List.all_eq_true.mp hall _ (List.mem_reverse.mpr h)
  rw [lastLine, lastLine, List.reverse_cons, List.takeWhile_append, if_neg hlength]

theorem lastLine_cons_newline (cs : List Char) : lastLine ('\n' :: cs) = lastLine cs := by
  by_cases h : '\n' ∈ cs
  · exact lastLine_cons_of_mem h
  · rw [lastLine_of_not_mem h, lastLine, List.reverse_cons, takeWhile_reverse_append h]
    simp

theorem lastLine_cons_of_not_mem {c : Char} {cs : List Char} (hc : c ≠ '\n') (h : '\n' ∉ cs) :
    lastLine (c :: cs) = c :: lastLine cs := by
  have hnot : '\n' ∉ c :: cs := by simp [Ne.symm hc, h]
  rw [lastLine_of_not_mem hnot, lastLine_of_not_mem h]

/-- Where all lines of the text in front end with `\n` or with `\r\n`, as many lines are cut from it as are
counted, and the next one goes on from its last line. -/
theorem getElem?_lines {before : List Char} (h : conventional before = true) (cs : List Char) :
    (lines (before ++ cs))[before.count '\n']? = (lines (lastLine before ++ cs))[0]? := by
  induction before using conventional.induct with
  | case1 => rfl
  | case2 before ih =>
    rw [conventional] at h
    rw [lastLine_cons_of_mem (List.mem_cons_self ..), lastLine_cons_newline, ← ih h]
    simp [lines_crlf]
  | case3 c before hne ih =>
    rw [conventional.eq_3 _ _ hne, Bool.and_eq_true] at h
    obtain ⟨hc, h⟩ := h
    by_cases hn : c = '\n'
    · subst hn
      rw [List.cons_append, lines_end (fun _ hcr => absurd hcr (by decide)) endsLine_newline,
        lastLine_cons_newline, ← ih h]
      simp
    · have hc : endsLine c = false := by simpa [hn] using hc
      by_cases hmem : '\n' ∈ before
      · obtain ⟨n, hcount⟩ := Nat.exists_eq_succ_of_ne_zero (Nat.pos_iff_ne_zero.mp (List.count_pos_iff.mpr hmem))
        rw [lastLine_cons_of_mem hmem, ← ih h, List.cons_append, lines_inside hc, List.count_cons_of_ne hn, hcount,
          getElem?_consLine]
      · have hnot : '\n' ∉ c :: before := by simp [Ne.symm hn, hmem]
        rw [lastLine_of_not_mem hnot, List.count_eq_zero.mpr hnot]

/-- The last line of such a text has no end of a line in it. -/
theorem lastLine_conventional {before : List Char} (h : conventional before = true) :
    ∀ c ∈ lastLine before, endsLine c = false := by
  induction before using conventional.induct with
  | case1 => exact List.forall_mem_nil _
  | case2 before ih =>
    rw [lastLine_cons_of_mem (List.mem_cons_self ..), lastLine_cons_newline]
    exact ih (by rwa [conventional] at h)
  | case3 c before hne ih =>
    rw [conventional.eq_3 _ _ hne, Bool.and_eq_true] at h
    obtain ⟨hc, h⟩ := h
    by_cases hn : c = '\n'
    · subst hn
      rw [lastLine_cons_newline]
      exact ih h
    · by_cases hmem : '\n' ∈ before
      · rw [lastLine_cons_of_mem hmem]
        exact ih h
      · rw [lastLine_cons_of_not_mem hn hmem]
        exact List.forall_mem_cons.mpr ⟨by simpa [hn] using hc, ih h⟩

/-- A character that ends a line ends an empty one if nothing is in front of it. -/
theorem lines_eq_nil_cons {c : Char} (hc : endsLine c = true) (cs : List Char) :
    ∃ ls, lines (c :: cs) = [] :: ls := by
  by_cases hcrlf : ∃ ds, c = '\r' ∧ cs = '\n' :: ds
  · obtain ⟨ds, rfl, rfl⟩ := hcrlf
    exact ⟨_, lines_crlf ds⟩
  · exact ⟨_, lines_end (fun ds hcr hcs => hcrlf ⟨ds, hcr, hcs⟩) hc⟩

/-- The first line is what stands in front of the first end of a line. -/
theorem getElem?_lines_zero {l cs : List Char} (hl : ∀ c ∈ l, endsLine c = false) (hne : l ≠ [])
    (hcs : ∀ c ∈ cs.head?, endsLine c = true) : (lines (l ++ cs))[0]? = some l := by
  induction l with
  | nil => exact absurd rfl hne
  | cons c l ih =>
    obtain ⟨hc, hl⟩ := List.forall_mem_cons.mp hl
    rw [List.cons_append, lines_inside hc]
    cases l with
    | nil =>
      cases cs with
      | nil => rfl
      | cons e cs =>
        obtain ⟨ls, hls⟩ := lines_eq_nil_cons (hcs e rfl) cs
        rw [List.nil_append, hls]
        rfl
    | cons d l =>
      have hfirst := ih hl (List.cons_ne_nil d l)
      cases hls : lines (d :: l ++ cs) with
      | nil =>
        rw [hls] at hfirst
        cases hfirst
      | cons l' ls =>
        rw [hls] at hfirst
        cases hfirst
        rfl

end Text

open Text

/-! ## The first character of a token -/

/-- A token is cut from a stretch that does not start with a blank, and it stands where the stretch starts. -/
theorem mem_tokens {before cs : List Char} {t : Token} (ht : t ∈ Lexer.tokens (place before) cs)
    (hkind : t.kind ≠ .endOfInput) :
    ∃ front c span behind, cs = front ++ c :: (span ++ behind) ∧ isBlank c = false ∧
      t.word.Covers (c :: span) ∧ t.pos = place (before ++ front) := by
  induction cs using Lexer.text_induction generalizing before with
  | nil =>
    rw [Lexer.tokens_nil, List.mem_singleton] at ht
    exact absurd (congrArg Token.kind ht) hkind
  | blank c cs hc ih =>
    rw [Lexer.tokens_blank hc, ← place_append_singleton] at ht
    obtain ⟨front, d, span, behind, rfl, hd, hcovers, hpos⟩ := ih ht
    exact ⟨c :: front, d, span, behind, rfl, hd, hcovers, by simpa using hpos⟩
  | scan c cs hc ih =>
    obtain ⟨hwhole, hne, hcovers⟩ := scan_cutFrom c cs
    rw [Lexer.tokens_scan hc, ← place_append] at ht
    rcases List.mem_cons.mp ht with rfl | ht
    · cases hspan : (Lexer.scan c cs).span with
      | nil => exact absurd hspan hne
      | cons d span =>
        rw [hspan, List.cons_append] at hwhole
        obtain ⟨rfl, hrest⟩ := List.cons.inj hwhole
        rw [hspan] at hcovers
        exact ⟨[], d, span, (Lexer.scan d cs).rest, by rw [List.nil_append, hrest], hc, hcovers, by simp [Scan.token]⟩
    · obtain ⟨front, d, span, behind, hcs, hd, hcovers', hpos⟩ := ih ht
      refine ⟨(Lexer.scan c cs).span ++ front, d, span, behind, ?_, hd, hcovers', by simpa using hpos⟩
      rw [← hwhole, hcs, List.append_assoc]

/-- Where a text ends can be told from the place behind it. -/
theorem place_append_eq_place {cs ds : List Char} (h : place (cs ++ ds) = place cs) : ds = [] := by
  have hline : (ds.count '\n' : Int) = 0 := by
    have := congrArg Pos.line h
    simp only [place, List.count_append] at this
    omega
  have hnot : '\n' ∉ ds := List.count_eq_zero.mp (by exact_mod_cast hline)
  have hcolumn := congrArg Pos.column h
  rw [place, place, List.reverse_append, takeWhile_reverse_append hnot] at hcolumn
  simp only [List.length_append, List.length_reverse] at hcolumn
  exact List.length_eq_zero_iff.mp (by omega)

/-- A text is taken apart at a place in one way only. -/
theorem append_eq_of_place {cs ds cs' ds' : List Char} (h : cs ++ ds = cs' ++ ds') (hplace : place cs = place cs') :
    cs = cs' ∧ ds = ds' := by
  rcases List.append_eq_append_iff.mp h with ⟨es, rfl, rfl⟩ | ⟨es, rfl, rfl⟩
  · obtain rfl := place_append_eq_place hplace.symm
    simp
  · obtain rfl := place_append_eq_place hplace
    simp

theorem endsLine_of_isBlank {c : Char} (h : isBlank c = false) : endsLine c = false := by
  simp only [isBlank, endsLine, Bool.or_eq_false_iff, Bool.and_eq_false_iff, decide_eq_false_iff_not,
    beq_eq_false_iff_ne] at h ⊢
  omega

/-! ## Excerpts -/

namespace Reporter

@[simp] theorem length_untabbed (l : List Char) : (untabbed l).length = l.length := List.length_map _

@[simp] theorem take_untabbed (l : List Char) (n : Nat) : (untabbed l).take n = untabbed (l.take n) :=
  List.map_take.symm

@[simp] theorem drop_untabbed (l : List Char) (n : Nat) : (untabbed l).drop n = untabbed (l.drop n) :=
  List.map_drop.symm

theorem one_le_markedWidth (l : List Char) (start : Nat) (exprs : List String) : 1 ≤ markedWidth l start exprs := by
  unfold markedWidth
  split
  · exact Nat.le_refl 1
  · split
    · exact Nat.le_max_right ..
    · exact Nat.le_refl 1

/-- The excerpt of a line that goes on at the place of the diagnostic marks it from there on, and underlines what
it marks. -/
theorem excerpt?_of_line {r : Reporter} {d : Diagnostic} {front text : List Char} (mark : Mark)
    (hline : r.line? d.pos.line = some (front ++ text)) (hcolumn : d.pos.column = 1 + front.length)
    (hne : text ≠ []) :
    ∃ piece rest, text = piece ++ rest ∧ piece ≠ [] ∧
      r.excerpt? mark d = some ("  " ++ String.ofList (untabbed front) ++
        r.style.marked mark (String.ofList (untabbed piece)) ++ String.ofList (untabbed rest) ++ "\n  " ++
        String.ofList (List.replicate front.length ' ') ++
        r.style.marked mark (String.ofList ('^' :: List.replicate (piece.length - 1) '~'))) := by
  have hstart : (d.pos.column - 1).toNat = front.length := by omega
  have hpos := List.length_pos_iff.mpr hne
  obtain ⟨width, hwidth⟩ : ∃ width, markedWidth (untabbed (front ++ text)) front.length d.exprs = width := ⟨_, rfl⟩
  have hone : 1 ≤ width := hwidth ▸ one_le_markedWidth ..
  -- What is marked does not reach beyond the line, as the line goes on at the place.
  have hstop : min (front.length + width) (max (untabbed (front ++ text)).length (front.length + 1)) =
      front.length + min width text.length := by
    rw [length_untabbed, List.length_append]
    omega
  refine ⟨text.take (min width text.length), text.drop (min width text.length),
    (List.take_append_drop ..).symm, ?_, ?_⟩
  · rw [← List.length_pos_iff, List.length_take]
    omega
  · have hlength : (text.take (min width text.length)).length = min width text.length := by
      rw [List.length_take]
      omega
    simp only [excerpt?, hline, Option.map_some, hstart, hwidth, hstop, hlength, Nat.add_sub_cancel_left,
      take_untabbed, drop_untabbed, List.take_left, List.drop_left, List.take_length_add_append,
      List.drop_length_add_append]

/-- A line that is cut at two places is the same line. -/
theorem cut_untabbed (l : List Char) {start stop : Nat} (h : start ≤ stop) :
    String.ofList ((untabbed l).take start) ++ String.ofList (((untabbed l).take stop).drop start) ++
      String.ofList ((untabbed l).drop stop) = String.ofList (untabbed l) := by
  obtain ⟨width, rfl⟩ := Nat.exists_eq_add_of_le h
  rw [← String.ofList_append, ← String.ofList_append, List.append_assoc, List.drop_take, Nat.add_sub_cancel_left,
    ← List.drop_drop, List.take_append_drop, List.take_append_drop]

/-- Where reports are plain, an excerpt shows the line as it is, but for its tabs, and a caret under the place. -/
theorem excerpt?_plain {r : Reporter} (hplain : r.style.Plain) (mark : Mark) {d : Diagnostic} {l : List Char}
    (hline : r.line? d.pos.line = some l) :
    ∃ width, r.excerpt? mark d = some ("  " ++ String.ofList (untabbed l) ++ "\n  " ++
      String.ofList (List.replicate (d.pos.column - 1).toNat ' ') ++
      String.ofList ('^' :: List.replicate width '~')) := by
  generalize hstart : (d.pos.column - 1).toNat = start
  obtain ⟨stop, hstop⟩ : ∃ stop, min (start + markedWidth (untabbed l) start d.exprs)
    (max (untabbed l).length (start + 1)) = stop := ⟨_, rfl⟩
  have hle : start ≤ stop := by omega
  refine ⟨stop - start - 1, ?_⟩
  simp only [excerpt?, hline, Option.map_some, hplain.marked, hstart, hstop]
  rw [← cut_untabbed l hle]
  simp only [String.append_assoc]

end Reporter

/-- The line of a place is looked up by the number of `\n` in front of it. -/
theorem line?_register (r : Reporter) (path source : String) (before : List Char) :
    (r.register path source).line? (place before).line = (lines source.toList)[before.count '\n']? := by
  have hpos : 0 < (place before).line := by
    simp only [place]
    omega
  have hindex : ((place before).line - 1).toNat = before.count '\n' := by
    simp only [place]
    omega
  rw [Reporter.line?, if_pos hpos, hindex]
  rfl

/-- A text goes on with what a line has from its first character on, up to the next `\n`. -/
theorem eq_firstLine_append (cs : List Char) :
    ∃ ds, cs = firstLine cs ++ ds ∧ ∀ c ∈ ds.head?, endsLine c = true := by
  refine ⟨cs.dropWhile (· ≠ '\n'), List.takeWhile_append_dropWhile.symm, fun c hc => ?_⟩
  have hnot := List.head?_dropWhile_not (· ≠ '\n') cs
  rw [hc] at hnot
  obtain rfl : c = '\n' := by simpa using hnot
  exact endsLine_newline

/-- Whatever error is reported at a token of the text that was turned to, there is an excerpt for it. The token
is cut from a stretch of the text at its place; and if the text in front of that ends all its lines with `\n` or
with `\r\n`, and nothing ends a line between the place and the next `\n`, but for the first of `\r\n`, then the
excerpt shows the line of the token, with a piece of it marked that starts with the token, and a caret under the
start of that piece. -/
theorem excerpt_quotes_line (source : String) (t : Token) (ht : t ∈ tokenize source)
    (hkind : t.kind ≠ .endOfInput) (r : Reporter) (path : String) (mark : Mark) (d : Diagnostic)
    (hd : d.pos = t.pos) :
    ((r.register path source).excerpt? mark d).isSome = true ∧
    (∃ before span behind, source.toList = before ++ (span ++ behind) ∧ span ≠ [] ∧ t.word.Covers span ∧
      t.pos = place before) ∧
    ∀ before behind text, source.toList = before ++ behind → t.pos = place before →
      (firstLine behind = text ∨ firstLine behind = text ++ ['\r']) →
      conventional before = true → (∀ c ∈ text, endsLine c = false) →
      ∃ piece rest, text = piece ++ rest ∧ piece ≠ [] ∧
        (r.register path source).excerpt? mark d =
          some ("  " ++ String.ofList (Reporter.untabbed (lastLine before)) ++
            r.style.marked mark (String.ofList (Reporter.untabbed piece)) ++
            String.ofList (Reporter.untabbed rest) ++ "\n  " ++
            String.ofList (List.replicate (lastLine before).length ' ') ++
            r.style.marked mark (String.ofList ('^' :: List.replicate (piece.length - 1) '~'))) := by
  change t ∈ Lexer.tokens (place []) source.toList at ht
  obtain ⟨front, c, span, after, hsource, hblank, hcovers, hpos⟩ := mem_tokens ht hkind
  rw [List.nil_append] at hpos
  have hc := endsLine_of_isBlank hblank
  refine ⟨?_, ⟨front, c :: span, after, hsource, List.cons_ne_nil _ _, hcovers, hpos⟩, ?_⟩
  · have hline := line?_register r path source front
    rw [hsource, List.getElem?_eq_getElem (count_lt_length_lines front (span ++ after) hc)] at hline
    rw [Reporter.excerpt?, hd, hpos, hline]
    rfl
  · intro before behind text hsplit hplace htext hconv hends
    obtain ⟨rfl, rfl⟩ := append_eq_of_place (hsource.symm.trans hsplit) (hpos.symm.trans hplace)
    -- What follows the line in the text starts with an end of a line, be it `\n` or `\r\n`.
    obtain ⟨ds, hds, hnext⟩ := eq_firstLine_append (c :: (span ++ after))
    obtain ⟨es, hes, hnext⟩ : ∃ es, c :: (span ++ after) = text ++ es ∧ ∀ e ∈ es.head?, endsLine e = true := by
      rcases htext with htext | htext
      · exact ⟨ds, htext ▸ hds, hnext⟩
      · refine ⟨'\r' :: ds, ?_, ?_⟩
        · rw [htext, List.append_assoc] at hds
          exact hds
        · rintro e ⟨⟩
          decide
    have hne : text ≠ [] := by
      rintro rfl
      rw [List.nil_append] at hes
      exact absurd (hnext c (hes ▸ rfl)) (by simp [hc])
    have hall : ∀ e ∈ lastLine front ++ text, endsLine e = false := fun e he =>
      (List.mem_append.mp he).elim (lastLine_conventional hconv e) (hends e)
    have hline : (r.register path source).line? d.pos.line = some (lastLine front ++ text) := by
      rw [hd, hpos, line?_register, hsource, getElem?_lines hconv, hes, ← List.append_assoc]
      exact getElem?_lines_zero hall (by simp [hne]) hnext
    have hcolumn : d.pos.column = 1 + (lastLine front).length := by
      rw [hd, hpos, place, lastLine, List.length_reverse]
    exact Reporter.excerpt?_of_line mark hline hcolumn hne

/-- A name behind a tab, on the second of two lines that end with `\r\n`. -/
theorem excerpt_quotes_line_crlf :
    ∃ t ∈ tokenize "let x = 1;;\r\n\tzed;;\r\n", t.lexeme = "zed" ∧
      ∃ piece rest, "zed;;".toList = piece ++ rest ∧ piece ≠ [] ∧
        (Reporter.register ⟨.plain, false, "", []⟩ "in" "let x = 1;;\r\n\tzed;;\r\n").excerpt? .error
            (Located.typeDiagnostic ⟨t.pos, .undeclared "zed"⟩) =
          some ("  " ++ " " ++ String.ofList (Reporter.untabbed piece) ++
            String.ofList (Reporter.untabbed rest) ++ "\n  " ++ " " ++
            String.ofList ('^' :: List.replicate (piece.length - 1) '~')) := by
  refine ⟨⟨.identifier, "zed", ⟨2, 2⟩, none⟩, by decide +kernel, rfl, ?_⟩
  exact (excerpt_quotes_line "let x = 1;;\r\n\tzed;;\r\n" ⟨.identifier, "zed", ⟨2, 2⟩, none⟩ (by decide +kernel)
    (by decide) ⟨.plain, false, "", []⟩ "in" .error
    (Located.typeDiagnostic ⟨⟨2, 2⟩, .undeclared "zed"⟩) rfl).2.2
    "let x = 1;;\r\n\t".toList "zed;;\r\n".toList "zed;;".toList (by decide +kernel) (by decide +kernel)
    (.inr (by decide +kernel)) (by decide +kernel) (by simp [endsLine])

/-- A form feed ends a line in reports, but the lexer does not count it. -/
theorem not_excerpt_quotes_line :
    ¬ ∀ style : Emphasis, style.Plain →
      ∀ (source : String) (t : Token), t ∈ tokenize source → t.kind ≠ .endOfInput →
      ∀ before behind, source.toList = before ++ behind → t.pos = place before →
      ∀ d : Diagnostic, d.pos = t.pos →
      ∃ underline, (Reporter.register ⟨style, false, "", []⟩ "in" source).excerpt? .error d =
        some ("  " ++ String.ofList (Reporter.untabbed (lastLine before ++ firstLine behind)) ++ "\n" ++
          underline) := by
  intro h
  have htoken : ⟨.identifier, "x", ⟨1, 3⟩, none⟩ ∈ tokenize "\x0c x;;" := by decide +kernel
  obtain ⟨underline, hquote⟩ := h .plain Emphasis.plain_isPlain "\x0c x;;" _ htoken nofun
    "\x0c ".toList "x;;".toList (by decide +kernel) (by decide +kernel)
    (Located.typeDiagnostic ⟨⟨1, 3⟩, .undeclared "x"⟩) rfl
  have hactual : (Reporter.register ⟨.plain, false, "", []⟩ "in" "\x0c x;;").excerpt? .error
      (Located.typeDiagnostic ⟨⟨1, 3⟩, .undeclared "x"⟩) = some "  \n    ^" := by decide +kernel
  have hwanted : "  " ++ String.ofList (Reporter.untabbed (lastLine "\x0c ".toList ++ firstLine "x;;".toList)) =
      "  \x0c x;;" := by decide +kernel
  rw [hactual, hwanted] at hquote
  have hchars := congrArg String.toList (Option.some_inj.mp hquote)
  rw [String.toList_append, String.toList_append] at hchars
  have hthird := congrArg (·[2]?) hchars
  simp at hthird

end Camlet
