import Camlet.Proofs.Acceptance
import Camlet.Proofs.Endings

/-
  Comments are invisible. A comment can be overwritten by blanks that keep its line breaks, and nothing else
  changes: the other tokens are the same, each at its place, so the same program is read, with the same
  faults.

  The token in front of the comment ended at its opening bracket and ends at a space alike
  (`scan_leaving`). The blanks take up as much of the text as the comment did (`after_blankOut`), so that all
  that stands behind stays where it was.
-/

namespace Camlet

open Text (isBlank)

/-- A text with spaces in the place of all that is no line break. -/
def blankOut (cs : List Char) : List Char := cs.map fun c => if c = '\n' then '\n' else ' '

theorem isBlank_blankOut {cs : List Char} : ∀ c ∈ blankOut cs, isBlank c = true := by
  intro c hc
  obtain ⟨d, -, rfl⟩ := List.mem_map.mp hc
  split <;> decide

theorem after_blankOut (p : Pos) (cs : List Char) : p.after (blankOut cs) = p.after cs := by
  induction cs generalizing p with
  | nil => rfl
  | cons c cs ih =>
    have hstep : p.step (if c = '\n' then '\n' else ' ') = p.step c := by
      by_cases hc : c = '\n'
      · rw [if_pos hc, hc]
      · simp [Pos.step, hc]
    rw [blankOut, List.map_cons, Pos.after_cons, Pos.after_cons, hstep]
    exact ih _

/-- A comment is spelled as it stands in the text, from its bracket on. -/
theorem scan_comment {c : Char} {cs : List Char} (h : (Lexer.scan c cs).kind = .comment) :
    (Lexer.scan c cs).lexeme.toList = (Lexer.scan c cs).span ∧ ∃ ds, (Lexer.scan c cs).span = '(' :: ds := by
  have hopen : c = '(' := by
    have hstring := string_kind cs
    have hchar := char_kind cs
    have hbacktick := backtick_kind cs
    have hnumber := number_kind (c :: cs)
    have hword := word_kind (c :: cs)
    have hsymbol := symbol_kind c cs
    unfold Lexer.scan at h
    grind
  obtain ⟨hwhole, hne, hcovers⟩ := scan_cutFrom c cs
  rw [h] at hcovers
  obtain ⟨d, ds, hspan⟩ := List.exists_cons_of_ne_nil hne
  rw [hspan] at hwhole
  exact ⟨hcovers, ds, hspan.trans (congrArg (· :: ds) ((List.cons.inj hwhole).1.trans hopen))⟩

/-- A comment of a text, the stretches in front of it and behind it, and what the text is cut into without it. -/
theorem tokens_blankOut {pos : Pos} {cs : List Char} {before after : List Token} {c : Token}
    (h : Lexer.tokens pos cs = before ++ c :: after) (hc : c.kind = .comment) :
    ∃ front ds back, c.lexeme.toList = '(' :: ds ∧ cs = front ++ c.lexeme.toList ++ back ∧
      c.pos = pos.after front ∧
      Lexer.tokens pos (front ++ blankOut c.lexeme.toList ++ back) = before ++ after := by
  induction cs using Lexer.text_induction generalizing pos before with
  | nil =>
    rw [Lexer.tokens_nil] at h
    cases before with
    | nil =>
      obtain ⟨rfl, -⟩ := List.cons.inj h
      cases hc
    | cons b before => cases before <;> cases (List.cons.inj h).2
  | blank d cs hd ih =>
    rw [Lexer.tokens_blank hd] at h
    obtain ⟨front, ds, back, hopen, rfl, hpos, htokens⟩ := ih h
    refine ⟨d :: front, ds, back, hopen, rfl, hpos, ?_⟩
    rw [List.cons_append, List.cons_append, Lexer.tokens_blank hd]
    exact htokens
  | scan d cs hd ih =>
    obtain ⟨hwhole, hne, -⟩ := scan_cutFrom d cs
    rw [Lexer.tokens_scan hd] at h
    cases before with
    | nil =>
      obtain ⟨rfl, rfl⟩ := List.cons.inj h
      obtain ⟨hlexeme, ds, hspan⟩ := scan_comment hc
      have hlexeme : ((Lexer.scan d cs).token pos).lexeme.toList = (Lexer.scan d cs).span := hlexeme
      rw [hlexeme]
      refine ⟨[], ds, (Lexer.scan d cs).rest, hspan, hwhole.symm, rfl, ?_⟩
      rw [List.nil_append, Lexer.tokens_blanks isBlank_blankOut, after_blankOut]
      rfl
    | cons b before =>
      obtain ⟨rfl, htail⟩ := List.cons.inj h
      obtain ⟨front, ds, back, hopen, hrest, hpos, htokens⟩ := ih htail
      refine ⟨(Lexer.scan d cs).span ++ front, ds, back, hopen, ?_, ?_, ?_⟩
      · rw [← hwhole, hrest, List.append_assoc, List.append_assoc, List.append_assoc]
      · rw [hpos, Pos.after_append]
      · -- The comment starts with a bracket, and what replaces it with a space.
        have hends : EndsToo (c.lexeme.toList ++ back) (blankOut c.lexeme.toList ++ back) := by
          rw [hopen]
          exact .space _ _
        rw [List.append_assoc] at hrest htokens
        rw [List.append_assoc, List.append_assoc, tokens_leaving hends hd hrest, htokens]
        rfl

/-- What is read of a text depends on the tokens that count. -/
theorem parse_of_significant {source source' : String}
    (h : significant (tokenize source) = significant (tokenize source')) : parse source = parse source' := by
  unfold significant at h
  simp only [parse, parseTokens, parseWithin, h]

/-- A comment stands in the text at its place, and blanks in its stead leave all other tokens as they are, the
end of input among them, so that the same program is read with the same faults. -/
theorem tokenize_blankOut {source : String} {before after : List Token} {c : Token}
    (h : tokenize source = before ++ c :: after) (hc : c.kind = .comment) :
    (∃ front back, source.toList = front ++ c.lexeme.toList ++ back ∧ c.pos = place front) ∧
    ∀ front back, source.toList = front ++ c.lexeme.toList ++ back → c.pos = place front →
      tokenize (String.ofList (front ++ blankOut c.lexeme.toList ++ back)) = before ++ after ∧
      parse (String.ofList (front ++ blankOut c.lexeme.toList ++ back)) = parse source := by
  obtain ⟨front, -, back, -, htext, hpos, htokens⟩ := tokens_blankOut h hc
  rw [show Pos.first = place [] from rfl, ← place_append, List.nil_append] at hpos
  refine ⟨⟨front, back, htext, hpos⟩, fun front' back' htext' hpos' => ?_⟩
  have htexts : front ++ (c.lexeme.toList ++ back) = front' ++ (c.lexeme.toList ++ back') := by
    rw [← List.append_assoc, ← htext, htext', List.append_assoc]
  obtain rfl := place_inj htexts (hpos.symm.trans hpos')
  obtain rfl := List.append_cancel_left (List.append_cancel_left htexts)
  have htokenize : tokenize (String.ofList (front ++ blankOut c.lexeme.toList ++ back)) = before ++ after := by
    rw [tokenize_eq_tokens, String.toList_ofList]
    exact htokens
  refine ⟨htokenize, parse_of_significant ?_⟩
  rw [htokenize, h]
  simp [significant, hc]

/-- Between two malformed words, a comment on two lines with another one in it. -/
theorem tokenize_blankOut_malformed :
    let source := "f 2.(* a (* b\n*) c *)'x\n1e+ "
    let c : Token := ⟨.comment, "(* a (* b\n*) c *)", ⟨1, 5⟩, none⟩
    let before := [⟨.identifier, "f", ⟨1, 1⟩, none⟩, ⟨.error, "2.", ⟨1, 3⟩, some "expected a digit after '.'"⟩]
    let after := [⟨.error, "'x", ⟨2, 8⟩, some "unterminated character literal"⟩,
      ⟨.error, "1e+", ⟨3, 1⟩, some "expected a digit in exponent"⟩, ⟨.endOfInput, "", ⟨3, 5⟩, none⟩]
    tokenize source = before ++ c :: after ∧ c.kind = .comment ∧
    source.toList = "f 2.".toList ++ c.lexeme.toList ++ "'x\n1e+ ".toList ∧ c.pos = place "f 2.".toList ∧
    tokenize "f 2.         \n       'x\n1e+ " = before ++ after ∧
    parse "f 2.         \n       'x\n1e+ " = parse source := by
  intro source c before after
  have h : tokenize source = before ++ c :: after := by decide +kernel
  have htext : source.toList = "f 2.".toList ++ c.lexeme.toList ++ "'x\n1e+ ".toList := by decide +kernel
  have hplace : c.pos = place "f 2.".toList := by decide +kernel
  have hblank : String.ofList ("f 2.".toList ++ blankOut c.lexeme.toList ++ "'x\n1e+ ".toList) =
      "f 2.         \n       'x\n1e+ " := by decide +kernel
  obtain ⟨htokens, hparse⟩ := (tokenize_blankOut h rfl).2 _ _ htext hplace
  rw [hblank] at htokens hparse
  exact ⟨h, rfl, htext, hplace, htokens, hparse⟩

end Camlet
