import Camlet.Proofs.Places

/-
  Lexing is compositional at blanks. A text in which nothing is malformed, blanks behind it and any other text
  behind those are cut into the tokens of the first text and then those of the other, which stand as far down
  and as far to the right as the text in front reaches.
-/

namespace Camlet

open Text (isBlank)

/-- The place at which a place in a text comes to stand when another text is put in front: lines are added, and
columns on the first line are shifted by those behind the last `\n` in front. -/
def Pos.behind (front : String) (p : Pos) : Pos :=
  if p.line = 1 then
    ⟨p.line + front.toList.count '\n', p.column + (front.toList.reverse.takeWhile (· ≠ '\n')).length⟩
  else ⟨p.line + front.toList.count '\n', p.column⟩

theorem Pos.behind_eq_shift (front : String) : Pos.behind front = Pos.first.shift (place front.toList) := by
  funext p
  by_cases h : p.line = 1
  · simp only [behind, shift, place, first, h, if_true, Pos.mk.injEq, true_and]
    omega
  · simp only [behind, shift, place, first, h, if_false, Pos.mk.injEq, and_true]
    omega

namespace Lexer

/-- A text has the same tokens at two places, its end included, but for the distance. -/
theorem tokens_shift (p q : Pos) (cs : List Char) :
    tokens q cs = (tokens p cs).map (Token.moved (p.shift q)) := by
  obtain ⟨-, hend⟩ := (p.carries_shift q).after cs
  rw [Pos.shift_self] at hend
  rw [tokens_eq_body, tokens_eq_body, body_shift p q, List.map_append, List.map_singleton, Token.moved, hend]

/-- In front of blanks a text is cut as it is on its own, and the text behind them as it is at its place. -/
theorem tokens_append_blanks {pos : Pos} {cs ws : List Char} (h : ∀ t ∈ body pos cs, t.kind ≠ .error)
    (hne : ws ≠ []) (hblank : ∀ c ∈ ws, isBlank c = true) (ds : List Char) :
    tokens pos (cs ++ ws ++ ds) = body pos cs ++ tokens (pos.after (cs ++ ws)) ds := by
  obtain ⟨d, ws, rfl⟩ := List.exists_cons_of_ne_nil hne
  obtain ⟨hd, hws⟩ := List.forall_mem_cons.mp hblank
  have hend : pos.after (cs ++ d :: ws ++ ds) = (pos.after (cs ++ [d])).after (ws ++ ds) := by
    rw [← Pos.after_append]
    simp
  calc tokens pos (cs ++ d :: ws ++ ds)
      = body pos cs ++ body (pos.after (cs ++ [d])) (ws ++ ds) ++
          [⟨.endOfInput, "", pos.after (cs ++ d :: ws ++ ds), none⟩] := by
        rw [tokens_eq_body, List.append_assoc cs, List.cons_append, body_append_blank h hd]
    _ = body pos cs ++ tokens (pos.after (cs ++ [d])) (ws ++ ds) := by
        rw [hend, tokens_eq_body, List.append_assoc]
    _ = body pos cs ++ tokens (pos.after (cs ++ d :: ws)) ds := by
        rw [tokens_blanks hws, ← Pos.after_append, List.append_assoc, List.singleton_append]

end Lexer

/-- The tokens of a text but for the end of input. -/
theorem filter_tokenize_body (source : String) :
    (tokenize source).filter (·.kind != .endOfInput) = Lexer.body .first source.toList := by
  rw [tokenize_eq_body, List.filter_append]
  have hbody : ∀ t ∈ Lexer.body .first source.toList, (t.kind != .endOfInput) = true := fun t ht =>
    bne_iff_ne.mpr (Lexer.body_lexed _ _ t ht).kind_ne_endOfInput
  rw [List.filter_eq_self.mpr hbody]
  exact List.append_nil _

/-- A text in which nothing is malformed, blanks and any text are cut into the tokens of the first, the end of
input apart, and those of the last, each displaced by the texts in front. -/
theorem tokenize_append (a w b : String) (ha : ∀ t ∈ tokenize a, t.kind ≠ .error) (hw : w ≠ "")
    (hblank : ∀ c ∈ w.toList, isBlank c = true) :
    tokenize (a ++ w ++ b) =
      (tokenize a).filter (·.kind != .endOfInput) ++ (tokenize b).map (Token.moved (Pos.behind (a ++ w))) := by
  have hsound : ∀ t ∈ Lexer.body .first a.toList, t.kind ≠ .error := by
    intro t ht
    rw [← filter_tokenize_body] at ht
    exact ha t (List.mem_filter.mp ht).1
  have hne : w.toList ≠ [] := fun h => hw (String.toList_eq_nil_iff.mp h)
  have hplace : place (a ++ w).toList = Pos.first.after (a ++ w).toList := place_append [] _
  rw [tokenize_eq_tokens, String.toList_append, String.toList_append,
    Lexer.tokens_append_blanks hsound hne hblank, filter_tokenize_body, tokenize_eq_tokens,
    Pos.behind_eq_shift, hplace, ← String.toList_append, Lexer.tokens_shift .first (Pos.first.after _)]

/-- A comment over two lines in front, and malformed words behind. -/
theorem tokenize_append_malformed :
    (∀ t ∈ tokenize "f (* a\n b *) 1.5e3", t.kind ≠ .error) ∧ "\n\t " ≠ "" ∧
    (∀ c ∈ "\n\t ".toList, isBlank c = true) ∧
    tokenize "f (* a\n b *) 1.5e3\n\t 'x 2.\n\"y" =
      (tokenize "f (* a\n b *) 1.5e3").filter (·.kind != .endOfInput) ++
        (tokenize "'x 2.\n\"y").map (Token.moved (Pos.behind "f (* a\n b *) 1.5e3\n\t ")) := by
  have hsound : ∀ t ∈ tokenize "f (* a\n b *) 1.5e3", t.kind ≠ .error := by decide +kernel
  have hblank : ∀ c ∈ "\n\t ".toList, isBlank c = true := List.all_eq_true.mp (by decide)
  exact ⟨hsound, by decide, hblank, tokenize_append _ "\n\t " "'x 2.\n\"y" hsound (by decide) hblank⟩

end Camlet
