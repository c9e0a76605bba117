import Camlet.Proofs.Endings

/-
  A token is what its own stretch of text says it is. Cut on its own, the stretch of any token, malformed or
  not, is that token again and nothing else: what stands behind a token decides where it ends, and never what
  it is.

  The stretch is the text from the token's place on of which the token is the spelling. There is one such
  stretch only (`Word.covers_unique`), and it is the one that the lexer takes up: the tokens behind are those of
  the text behind it. A scanner that stops in front of any text comes to the same in front of nothing
  (`scan_leaving`), so the theorem is one induction along the lexer's loop.
-/

namespace Camlet

open Text (isBlank)

/-! ## The one stretch of a token -/

/-- What stands behind a closing quote adds to the inside of a literal, or changes what its last character
stands for. -/
theorem decode_ne_of_quote {q : Char} (hq : unescape q ≠ '\\') (inside more : List Char) :
    decode (inside ++ q :: more) ≠ decode inside := by
  induction inside using decode.induct with
  | case1 c cs ih => exact fun h => ih (List.cons.inj h).2
  | case2 c cs hescape ih =>
    intro h
    cases cs with
    | nil =>
      by_cases hc : c = '\\'
      · subst hc
        exact hq (List.cons.inj h).1
      · rw [List.singleton_append, decode_cons hc, decode_cons hc] at h
        exact ih (List.cons.inj h).2
    | cons d ds =>
      have hc : c ≠ '\\' := fun hc => hescape d ds hc rfl
      rw [List.cons_append, decode_cons hc, decode_cons hc] at h
      exact ih (List.cons.inj h).2
  | case3 =>
    intro h
    have hlength := congrArg List.length h
    rw [List.nil_append, decode.eq_def] at hlength
    split at hlength <;> simp [decode] at hlength
    next heq => cases heq

/-- Of two literals that start at one place and stand for the same, none is longer. -/
theorem inside_unique {q : Char} (hq : unescape q ≠ '\\') {inside inside' back back' : List Char}
    (htext : inside ++ q :: back = inside' ++ q :: back') (hdecode : decode inside = decode inside') :
    inside = inside' := by
  rcases List.append_eq_append_iff.mp htext with ⟨ds, rfl, hds⟩ | ⟨ds, rfl, hds⟩
  · cases ds with
    | nil => exact (List.append_nil _).symm
    | cons d ds =>
      obtain ⟨rfl, -⟩ := List.cons.inj hds
      exact absurd hdecode.symm (decode_ne_of_quote hq inside ds)
  · cases ds with
    | nil => exact List.append_nil _
    | cons d ds =>
      obtain ⟨rfl, -⟩ := List.cons.inj hds
      exact absurd hdecode (decode_ne_of_quote hq inside' ds)

/-- A word is the spelling of one stretch at the start of a text. -/
theorem Word.covers_unique {w : Word} {span span' back back' : List Char} (h : w.Covers span)
    (h' : w.Covers span') (htext : span ++ back = span' ++ back') : span = span' := by
  obtain ⟨kind, lexeme⟩ := w
  -- A literal is known by its inside, and every other word by its spelling.
  have hquoted : ∀ q, unescape q ≠ '\\' →
      (∃ inside, span = q :: inside ++ [q] ∧ lexeme.toList = decode inside) →
      (∃ inside, span' = q :: inside ++ [q] ∧ lexeme.toList = decode inside) → span = span' := by
    rintro q hq ⟨inside, rfl, hinside⟩ ⟨inside', rfl, hinside'⟩
    rw [List.append_assoc, List.append_assoc, List.cons_append, List.cons_append] at htext
    rw [inside_unique hq (List.cons.inj htext).2 (hinside.symm.trans hinside')]
  cases kind with
  | string => exact hquoted '"' (by decide) h h'
  | char => exact hquoted '\'' (by decide) h h'
  | backtickIdent => exact Eq.trans h (Eq.symm h')
  | endOfInput => exact h.elim
  | keyword | identifier | int | float | operator | delimiter | comment | error =>
    exact Eq.trans (Eq.symm h) h'

/-! ## The stretch on its own -/

/-- A token of a text, the stretches in front of its own and behind it, and what its own is cut into wherever it
stands alone. -/
theorem tokens_span {pos : Pos} {cs : List Char} {before after : List Token} {t : Token}
    (h : Lexer.tokens pos cs = before ++ t :: after) (ht : t.kind ≠ .endOfInput) :
    ∃ front span back, cs = front ++ span ++ back ∧ t.pos = pos.after front ∧ t.word.Covers span ∧
      after = Lexer.tokens (pos.after (front ++ span)) back ∧
      ∀ p, Lexer.tokens p span = [{ t with pos := p }, ⟨.endOfInput, "", p.after span, none⟩] := by
  induction cs using Lexer.text_induction generalizing pos before with
  | nil =>
    rw [Lexer.tokens_nil] at h
    cases before with
    | nil =>
      obtain ⟨rfl, -⟩ := List.cons.inj h
      exact absurd rfl ht
    | cons b before => cases before <;> cases (List.cons.inj h).2
  | blank c cs hc ih =>
    rw [Lexer.tokens_blank hc] at h
    obtain ⟨front, span, back, rfl, hpos, hcovers, hafter, halone⟩ := ih h
    exact ⟨c :: front, span, back, rfl, hpos, hcovers, hafter, halone⟩
  | scan c cs hc ih =>
    obtain ⟨hwhole, -, hcovers⟩ := scan_cutFrom c cs
    rw [Lexer.tokens_scan hc] at h
    cases before with
    | nil =>
      obtain ⟨rfl, rfl⟩ := List.cons.inj h
      refine ⟨[], (Lexer.scan c cs).span, (Lexer.scan c cs).rest, hwhole.symm, rfl, hcovers, rfl, fun p => ?_⟩
      have halone := tokens_leaving (.nothing (Lexer.scan c cs).rest) hc (List.nil_append _).symm p
      rw [List.append_nil, List.append_nil, Lexer.tokens_nil] at halone
      exact halone
    | cons b before =>
      obtain ⟨rfl, htail⟩ := List.cons.inj h
      obtain ⟨front, span, back, hrest, hpos, hcovers, hafter, halone⟩ := ih htail
      refine ⟨(Lexer.scan c cs).span ++ front, span, back, ?_, ?_, hcovers, ?_, halone⟩
      · rw [← hwhole, hrest, List.append_assoc, List.append_assoc, List.append_assoc]
      · rw [hpos, Pos.after_append]
      · rw [hafter, List.append_assoc, Pos.after_append pos]

/-- A token stands for a stretch of the text that starts at its place; the tokens behind it are those of what
stands behind the stretch. The stretch on its own is cut into the token, note included, at the first place, and
the end of input. -/
theorem tokenize_span {source : String} {before after : List Token} {t : Token}
    (h : tokenize source = before ++ t :: after) (ht : t.kind ≠ .endOfInput) :
    (∃ front span back, source.toList = front ++ span ++ back ∧ t.pos = place front ∧ t.word.Covers span ∧
      after = Lexer.tokens (place (front ++ span)) back) ∧
    ∀ front span back, source.toList = front ++ span ++ back → t.pos = place front → t.word.Covers span →
      tokenize (String.ofList span) = [{ t with pos := .first }, ⟨.endOfInput, "", place span, none⟩] := by
  obtain ⟨front, span, back, htext, hpos, hcovers, hafter, halone⟩ := tokens_span h ht
  have hplace : ∀ cs, Pos.first.after cs = place cs := fun cs => (place_append [] cs).symm
  rw [hplace] at hpos hafter
  refine ⟨⟨front, span, back, htext, hpos, hcovers, hafter⟩, fun front' span' back' htext' hpos' hcovers' => ?_⟩
  have htexts : front ++ (span ++ back) = front' ++ (span' ++ back') := by
    rw [← List.append_assoc, ← htext, htext', List.append_assoc]
  obtain rfl := place_inj htexts (hpos.symm.trans hpos')
  obtain rfl := Word.covers_unique hcovers hcovers' (List.append_cancel_left htexts)
  rw [tokenize_eq_tokens, String.toList_ofList, halone, hplace]

/-- A string that the end of its line breaks off behind an escaped quote, in front of a malformed number. -/
theorem tokenize_span_unterminated :
    let source := "f \"a\\\"b\n1e+x"
    let t : Token := ⟨.error, "\"a\\\"b", ⟨1, 3⟩, some "unterminated string literal"⟩
    let after := [⟨.error, "1e+", ⟨2, 1⟩, some "expected a digit in exponent"⟩, ⟨.identifier, "x", ⟨2, 4⟩, none⟩,
      ⟨.endOfInput, "", ⟨2, 5⟩, none⟩]
    tokenize source = [⟨.identifier, "f", ⟨1, 1⟩, none⟩] ++ t :: after ∧ t.kind ≠ .endOfInput ∧
    source.toList = "f ".toList ++ "\"a\\\"b".toList ++ "\n1e+x".toList ∧ t.pos = place "f ".toList ∧
    t.word.Covers "\"a\\\"b".toList ∧
    tokenize "\"a\\\"b" =
      [⟨.error, "\"a\\\"b", .first, some "unterminated string literal"⟩, ⟨.endOfInput, "", ⟨1, 6⟩, none⟩] := by
  intro source t after
  have h : tokenize source = [⟨.identifier, "f", ⟨1, 1⟩, none⟩] ++ t :: after := by decide +kernel
  have htext : source.toList = "f ".toList ++ "\"a\\\"b".toList ++ "\n1e+x".toList := by decide +kernel
  have hplace : t.pos = place "f ".toList := by decide +kernel
  have hcovers : t.word.Covers "\"a\\\"b".toList := rfl
  exact ⟨h, nofun, htext, hplace, hcovers, (tokenize_span h nofun).2 _ _ _ htext hplace hcovers⟩

end Camlet
