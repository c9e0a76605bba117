import Camlet.Evaluation.Value
import Camlet.Proofs.Numerals

/-
  Words and their spelling. A word is a token without its place; it is spelled as source text, literals
  with the escapes of printed values. Words that are spelled with single spaces between them are cut by
  the lexer into the same words.
-/

namespace Camlet

open Text (isBlank isDigit isLetter digitValue)

/-- A token without its place. -/
structure Word where
  kind : TokenKind
  lexeme : String
  deriving DecidableEq, Repr

namespace Word

/-- The source text of a word. -/
def text (w : Word) : String :=
  match w.kind with
  | .string => Value.enquote '"' w.lexeme
  | .char => Value.enquote '\'' w.lexeme
  | .backtickIdent => "\x60" ++ w.lexeme ++ "\x60"
  | _ => w.lexeme

end Word

/-- The source text of words, with single spaces between them. -/
def spell (ws : List Word) : String := " ".intercalate (ws.map Word.text)

/-- The word of a token. -/
def Token.word (t : Token) : Word := ⟨t.kind, t.lexeme⟩

/-- A text that is empty or starts with a space. -/
def Spaced (cs : List Char) : Prop := ∀ c ∈ cs.head?, c = ' '

/-- A word, but no comment, that the lexer cuts off where a space or nothing follows it. -/
structure Word.IsCut (w : Word) : Prop where
  significant : w.kind ≠ .comment
  cut : ∀ rest, Spaced rest → ∃ c cs, w.text.toList ++ rest = c :: cs ∧ isBlank c = false ∧
    Lexer.scan c cs = ⟨w.kind, w.lexeme, none, w.text.toList, rest⟩

theorem Word.text_plain {k : TokenKind} {s : String}
    (h : k ∉ [TokenKind.string, .char, .backtickIdent]) : Word.text ⟨k, s⟩ = s := by
  cases k <;> simp_all [Word.text]

theorem spaced_nil : Spaced [] := by simp [Spaced]

theorem spaced_space (cs : List Char) : Spaced (' ' :: cs) := by simp [Spaced]

theorem Spaced.cases {cs : List Char} (h : Spaced cs) : cs = [] ∨ ∃ ds, cs = ' ' :: ds := by
  cases cs with
  | nil => exact .inl rfl
  | cons c ds =>
    obtain rfl : c = ' ' := h c rfl
    exact .inr ⟨ds, rfl⟩

theorem Spaced.takeWhile {p : Char → Bool} {cs rest : List Char} (hrest : Spaced rest)
    (hcs : ∀ c ∈ cs, p c = true) (hp : p ' ' = false) :
    (cs ++ rest).takeWhile p = cs ∧ (cs ++ rest).dropWhile p = rest := by
  rw [List.takeWhile_append_of_pos hcs, List.dropWhile_append_of_pos hcs]
  rcases hrest.cases with rfl | ⟨ds, rfl⟩ <;> simp [hp]

/-! ## Symbols and words -/

/-- A symbol is cut whole: none is hidden by a shorter one. -/
theorem isCut_symbol {s : String} (hs : s ∈ symbols) : Word.IsCut ⟨Lexer.symbolKind s, s⟩ := by
  have hkind : Lexer.symbolKind s ∉ [TokenKind.string, .char, .backtickIdent, .comment] := by
    simp only [Lexer.symbolKind]
    split <;> decide
  have htext : Word.text ⟨Lexer.symbolKind s, s⟩ = s := Word.text_plain (by simp_all)
  refine ⟨by simp_all, fun rest hrest => ?_⟩
  rw [htext]
  clear htext
  rcases hrest.cases with rfl | ⟨ds, rfl⟩
  · repeat
      obtain rfl | hs := List.mem_cons.mp hs
      · exact ⟨_, _, rfl, rfl, rfl⟩
    cases hs
  · repeat
      obtain rfl | hs := List.mem_cons.mp hs
      · exact ⟨_, _, rfl, rfl, rfl⟩
    cases hs

/-- The blanks beyond ASCII, as closed ranges of code points. -/
def blankRanges : List (Nat × Nat) :=
  [(0x85, 0x85), (0xa0, 0xa0), (0x1680, 0x1680), (0x2000, 0x200a), (0x2028, 0x2029), (0x202f, 0x202f),
    (0x205f, 0x205f), (0x3000, 0x3000)]

theorem isBlank_cases {c : Char} (h : isBlank c = true) :
    c.toNat ≤ 32 ∨ ∃ b ∈ blankRanges, b.1 ≤ c.toNat ∧ c.toNat ≤ b.2 := by
  simp only [isBlank, Bool.or_eq_true, Bool.and_eq_true, decide_eq_true_eq, beq_iff_eq] at h
  simp only [blankRanges, List.mem_cons, List.not_mem_nil, or_false, exists_eq_or_imp, exists_eq_left]
  omega

theorem isLetter_cases {c : Char} (h : isLetter c = true) :
    (65 ≤ c.toNat ∧ c.toNat ≤ 122) ∨
      128 ≤ c.toNat ∧ ∃ r ∈ Text.letterRanges, r.1 ≤ c.toNat ∧ c.toNat ≤ r.2 := by
  unfold isLetter at h
  split at h
  · left
    rcases (Bool.or_eq_true c.isUpper c.isLower).mp h with hupper | hlower
    · have hrange : 'A'.val ≤ c.val ∧ c.val ≤ 'Z'.val := of_decide_eq_true hupper
      exact ⟨hrange.1, Nat.le_trans hrange.2 (by decide)⟩
    · obtain ⟨h₁, h₂⟩ := (Bool.and_eq_true (decide ('a'.val ≤ c.val)) (decide (c.val ≤ 'z'.val))).mp hlower
      exact ⟨Nat.le_trans (by decide) (of_decide_eq_true h₁), of_decide_eq_true h₂⟩
  next hascii =>
    right
    refine ⟨Nat.le_of_not_lt hascii, ?_⟩
    simpa [Text.inRanges] using h

/-- No letter is blank. -/
theorem isLetter_not_isBlank {c : Char} (h : isLetter c = true) : isBlank c = false := by
  have hapart : ∀ b ∈ blankRanges, ∀ r ∈ Text.letterRanges, b.2 < r.1 ∨ r.2 < b.1 := by decide +kernel
  rw [← Bool.not_eq_true]
  intro hb
  rcases isLetter_cases h with hl | ⟨hl, r, hr, hr₁, hr₂⟩
  · rcases isBlank_cases hb with hb | ⟨b, hb, hb₁, hb₂⟩
    · omega
    · have hlow : ∀ b ∈ blankRanges, 122 < b.1 := by decide
      have := hlow b hb
      omega
  · rcases isBlank_cases hb with hb | ⟨b, hb, hb₁, hb₂⟩
    · omega
    · have := hapart b hb r hr
      omega

/-- A character with which a word may start starts no other token, and is not blank. -/
theorem startsWord.plain {c : Char} (h : Lexer.startsWord c = true) :
    isBlank c = false ∧ c ≠ '(' ∧ c ≠ '"' ∧ c ≠ '\'' ∧ c ≠ '\x60' ∧ isDigit c = false := by
  have hne : ∀ d, Lexer.startsWord d = false → c ≠ d := by
    rintro d hd rfl
    rw [h] at hd
    cases hd
  refine ⟨?_, hne _ (by decide), hne _ (by decide), hne _ (by decide), hne _ (by decide), ?_⟩
  · rcases (Bool.or_eq_true _ _).mp h with hl | hu
    · exact isLetter_not_isBlank hl
    · rw [eq_of_beq hu]
      decide
  · rw [← Bool.not_eq_true, isDigit_iff]
    rcases (Bool.or_eq_true _ _).mp h with hl | hu
    · rcases isLetter_cases hl with h | ⟨h, -⟩ <;> omega
    · rw [eq_of_beq hu]
      decide

/-- Whether a text is a word, from its first character to its last. -/
def isWord (s : String) : Bool :=
  match s.toList with
  | [] => false
  | c :: cs => Lexer.startsWord c && (c :: cs).all Lexer.continuesWord

theorem isCut_word {s : String} (hs : isWord s = true) : Word.IsCut ⟨Lexer.wordKind s, s⟩ := by
  have hkind : Lexer.wordKind s ∉ [TokenKind.string, .char, .backtickIdent, .comment] := by
    simp only [Lexer.wordKind]
    split
    · decide
    · split <;> decide
  have htext : Word.text ⟨Lexer.wordKind s, s⟩ = s := Word.text_plain (by simp_all)
  refine ⟨by simp_all, fun rest hrest => ?_⟩
  rw [htext]
  unfold isWord at hs
  split at hs
  · cases hs
  next c cs hcs =>
    obtain ⟨hstart, hall⟩ := (Bool.and_eq_true _ _).mp hs
    obtain ⟨hblank, h₁, h₂, h₃, h₄, h₅⟩ := startsWord.plain hstart
    have hspan := hrest.takeWhile (List.all_eq_true.mp hall) (by decide)
    refine ⟨c, cs ++ rest, by rw [hcs]; rfl, hblank, ?_⟩
    have hword : Lexer.scan c (cs ++ rest) = Lexer.word (c :: (cs ++ rest)) := by
      simp [Lexer.scan, h₁, h₂, h₃, h₄, h₅, hstart]
    rw [hword, Lexer.word, ← List.cons_append, hspan.1, hspan.2, ← hcs]
    simp [Scan.plain]

/-! ## Literals and names between backticks -/

theorem isDigit_not_isBlank {c : Char} (h : isDigit c = true) : isBlank c = false := by
  rw [isDigit_iff] at h
  rw [← Bool.not_eq_true]
  simp only [isBlank, Bool.or_eq_true, Bool.and_eq_true, decide_eq_true_eq, beq_iff_eq]
  omega

theorem scan_digit {c : Char} {cs : List Char} (h : isDigit c = true) :
    Lexer.scan c cs = Lexer.number (c :: cs) := by
  have hne : ∀ d, isDigit d = false → c ≠ d := fun d hd => isDigit.ne h hd
  simp [Lexer.scan, h, hne '(' (by decide), hne '"' (by decide), hne '\'' (by decide),
    hne '\x60' (by decide)]

theorem toDigits_isDigit {n : Nat} {d : Char} (h : d ∈ Nat.toDigits 10 n) : isDigit d = true := by
  have := Nat.isDigit_of_mem_toDigits (by decide) (by decide) h
  simp only [Char.isDigit, Bool.and_eq_true, decide_eq_true_eq] at this
  exact isDigit_iff.mpr this

theorem ofDigitChars_digits (n : Nat) : Nat.ofDigitChars 10 (Number.digits n) 0 = n := Nat.ofDigitChars_ten_toDigits

theorem digits_inj {m n : Nat} : Number.digits m = Number.digits n ↔ m = n := by
  refine ⟨fun h => ?_, congrArg Number.digits⟩
  have hvalue := congrArg (Nat.ofDigitChars 10 · 0) h
  rwa [ofDigitChars_digits, ofDigitChars_digits] at hvalue

theorem isCut_int {n : Nat} : Word.IsCut ⟨.int, Number.writeNat n⟩ := by
  refine ⟨nofun, fun rest hrest => ?_⟩
  rw [Word.text_plain (by decide), Number.writeNat, Number.digits, String.toList_ofList]
  have hds : ∀ d ∈ Nat.toDigits 10 n, isDigit d = true := fun d hd => toDigits_isDigit hd
  have hspan := hrest.takeWhile hds (by decide)
  obtain ⟨d, ds, hcons⟩ := List.exists_cons_of_ne_nil (Nat.toDigits_ne_nil (b := 10) (n := n))
  have hd : isDigit d = true := hds d (by simp [hcons])
  rw [hcons] at hspan ⊢
  refine ⟨d, ds ++ rest, rfl, isDigit_not_isBlank hd, ?_⟩
  rw [scan_digit hd, Lexer.number, ← List.cons_append, hspan.1, hspan.2]
  rcases hrest.cases with rfl | ⟨cs, rfl⟩ <;> simp [Lexer.exponent, Scan.plain]

/-- A character of a printed text is escaped, or it stands for itself. -/
theorem escapeChar_cases (quote c : Char) (hq : unescape quote = quote) :
    (∃ d, Value.escapeChar quote c = ['\\', d] ∧ unescape d = c) ∨
      (Value.escapeChar quote c = [c] ∧ c ≠ '\n' ∧ c ≠ '\\' ∧ c ≠ quote) := by
  unfold Value.escapeChar
  split
  next h => exact .inl ⟨'n', rfl, h.symm⟩
  split
  next h => exact .inl ⟨'t', rfl, h.symm⟩
  split
  next h => exact .inl ⟨'r', rfl, h.symm⟩
  split
  next h => exact .inl ⟨'\\', rfl, h.symm⟩
  split
  next h => exact .inl ⟨quote, rfl, hq.trans h.symm⟩
  exact .inr ⟨rfl, ‹_›, ‹_›, ‹_›⟩

/-- Each character of a text that is printed between quotes is read back. -/
theorem stringBody_escape (cs rest : List Char) :
    Lexer.stringBody (cs.flatMap (Value.escapeChar '"') ++ '"' :: rest) =
      (some cs, cs.flatMap (Value.escapeChar '"') ++ ['"'], rest) := by
  induction cs with
  | nil => rfl
  | cons c cs ih =>
    rw [List.flatMap_cons, List.append_assoc]
    rcases escapeChar_cases '"' c rfl with ⟨d, hesc, hd⟩ | ⟨hesc, hn, hb, hq⟩
    · simp [hesc, hd, Lexer.stringBody, ih]
    · simp [hesc, hb, Lexer.stringBody, ih]

theorem isCut_string (s : String) : Word.IsCut ⟨.string, s⟩ := by
  refine ⟨nofun, fun rest _ => ?_⟩
  refine ⟨'"', s.toList.flatMap (Value.escapeChar '"') ++ '"' :: rest, ?_, rfl, ?_⟩
  · simp [Word.text, Value.enquote]
  · have hscan : ∀ cs, Lexer.scan '"' cs = Lexer.string cs := fun cs => by simp [Lexer.scan]
    rw [hscan, Lexer.string, stringBody_escape]
    simp [Word.text, Value.enquote]

theorem isCut_char (c : Char) : Word.IsCut ⟨.char, String.singleton c⟩ := by
  refine ⟨nofun, fun rest _ => ?_⟩
  refine ⟨'\'', Value.escapeChar '\'' c ++ '\'' :: rest, ?_, rfl, ?_⟩
  · simp [Word.text, Value.enquote]
  · have hscan : ∀ cs, Lexer.scan '\'' cs = Lexer.char cs := fun cs => by simp [Lexer.scan]
    rw [hscan]
    rcases escapeChar_cases '\'' c rfl with ⟨d, hesc, hd⟩ | ⟨hesc, hn, hb, hq⟩
    · simp [hesc, hd, Lexer.char, Lexer.charEnd, Word.text, Value.enquote]
    · simp [hesc, hb, Lexer.char, Lexer.charEnd, Word.text, Value.enquote]

theorem isCut_backtick {s : String} (hne : s ≠ "") (hs : '\x60' ∉ s.toList) :
    Word.IsCut ⟨.backtickIdent, s⟩ := by
  refine ⟨nofun, fun rest _ => ?_⟩
  refine ⟨'\x60', s.toList ++ '\x60' :: rest, ?_, rfl, ?_⟩
  · simp [Word.text]
  · have hscan : ∀ cs, Lexer.scan '\x60' cs = Lexer.backtick cs := fun cs => by simp [Lexer.scan]
    have hname : ∀ c ∈ s.toList, (decide (c ≠ '\x60')) = true := by
      intro c hc
      rw [decide_eq_true_eq]
      rintro rfl
      exact hs hc
    have htake : (s.toList ++ '\x60' :: rest).takeWhile (· ≠ '\x60') = s.toList := by
      rw [List.takeWhile_append_of_pos hname]
      simp
    have hdrop : (s.toList ++ '\x60' :: rest).dropWhile (· ≠ '\x60') = '\x60' :: rest := by
      rw [List.dropWhile_append_of_pos hname]
      simp
    have hempty : s.toList.isEmpty = false := by simpa using hne
    simp only [hscan, Lexer.backtick, htake, hdrop, hempty]
    simp [Word.text]

/-! ## Cutting a whole text -/

/-- A word at the start of a text is cut off, and what follows it is cut next. -/
theorem Word.IsCut.tokensFrom {w : Word} (hw : w.IsCut) {rest : List Char} (hrest : Spaced rest)
    {fuel : Nat} {pos : Pos} (hf : (w.text.toList ++ rest).length ≤ fuel) :
    ∃ fuel' t pos', rest.length ≤ fuel' ∧ Token.word t = w ∧
      Lexer.tokensFrom fuel pos (w.text.toList ++ rest) = t :: Lexer.tokensFrom fuel' pos' rest := by
  obtain ⟨c, cs, hcs, hblank, hscan⟩ := hw.cut rest hrest
  have htext : w.text.toList ≠ [] := by
    intro h
    rw [h, List.nil_append] at hcs
    obtain rfl : c = ' ' := hrest c (by rw [hcs]; rfl)
    revert hblank
    decide
  cases fuel with
  | zero => simp [hcs] at hf
  | succ fuel =>
    refine ⟨fuel, ⟨w.kind, w.lexeme, pos, none⟩, pos.after w.text.toList, ?_, rfl, ?_⟩
    · have := List.length_pos_iff.mpr htext
      rw [List.length_append] at hf
      omega
    · rw [hcs, Lexer.tokensFrom, hblank]
      simp [hscan, Scan.token]

/-- Spelled words are cut into the same words. -/
theorem tokensFrom_spell {ws : List Word} (h : ∀ w ∈ ws, w.IsCut) {fuel : Nat} (pos : Pos)
    (hf : (spell ws).toList.length ≤ fuel) :
    ∃ ts last, Lexer.tokensFrom fuel pos (spell ws).toList = ts ++ [last] ∧ ts.map Token.word = ws ∧
      last.kind = .endOfInput := by
  induction ws generalizing fuel pos with
  | nil => cases fuel <;> exact ⟨[], _, rfl, rfl, rfl⟩
  | cons w ws ih =>
    have hw := h w (List.mem_cons_self ..)
    have hws : ∀ w ∈ ws, w.IsCut := fun v hv => h v (List.mem_cons_of_mem _ hv)
    cases ws with
    | nil =>
      have htext : (spell [w]).toList = w.text.toList ++ [] := by simp [spell]
      rw [htext] at hf ⊢
      obtain ⟨fuel', t, pos', -, ht, heq⟩ := hw.tokensFrom spaced_nil hf
      refine ⟨[t], ⟨.endOfInput, "", pos', none⟩, ?_, by simp [ht], rfl⟩
      rw [heq]
      cases fuel' <;> rfl
    | cons v ws =>
      have htext : (spell (w :: v :: ws)).toList = w.text.toList ++ ' ' :: (spell (v :: ws)).toList := by
        simp [spell]
      rw [htext] at hf ⊢
      obtain ⟨fuel', t, pos', hf', ht, heq⟩ := hw.tokensFrom (spaced_space _) hf
      cases fuel' with
      | zero => simp at hf'
      | succ fuel' =>
        have hlength : (spell (v :: ws)).toList.length ≤ fuel' := by simpa using hf'
        obtain ⟨ts, last, hts, hmap, hlast⟩ := ih hws (pos'.step ' ') hlength
        refine ⟨t :: ts, last, ?_, by simp [ht, hmap], hlast⟩
        rw [heq, Lexer.tokensFrom, if_pos (by decide), hts]
        rfl

/-- No word is an end of input. -/
theorem Word.IsCut.kind_ne_endOfInput {w : Word} (h : w.IsCut) : w.kind ≠ .endOfInput := by
  obtain ⟨c, cs, -, -, hscan⟩ := h.cut [] spaced_nil
  have := scan_kind c cs
  rwa [hscan] at this

theorem tokenize_spell {ws : List Word} (h : ∀ w ∈ ws, w.IsCut) :
    ∃ ts last, tokenize (spell ws) = ts ++ [last] ∧ ts.map Token.word = ws ∧
      last.kind = .endOfInput :=
  tokensFrom_spell h _ (Nat.le_refl _)

end Camlet
