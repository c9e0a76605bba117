import Camlet.Proofs.RoundTrip
import Camlet.Proofs.Successes

/-
  Values that are read back. A text, a character and a whole number of not too many digits are printed as
  source text which is an expression, and running it gives the value that was printed. A negative number is
  the one that is not printed as a single word: it is read as a sign and a numeral.
-/

namespace Camlet

open Stateful

/-- A value that is printed so that it can be read back. -/
inductive Value.Readable : Value → Prop
  | int (n : Int) : (Number.digits n.natAbs).length ≤ Number.maxDigits → Readable (.int n)
  | string (s : String) : Readable (.string s)
  | char (c : Char) : Readable (.char (String.singleton c))

/-- A whole number is shown unless it has too many digits. -/
theorem showInt?_of_digits {n : Int} (h : (Number.digits n.natAbs).length ≤ Number.maxDigits) :
    Number.showInt? n = some (Number.writeInt n) := by
  have hlt := (Nat.length_toDigits_le_iff (by decide) (by decide)).mp h
  rw [Number.showInt?, Nat.pow_eq, if_pos hlt]

theorem render_int {n : Int} {s : String} (h : Number.showInt? n = some s) :
    (Value.int n).render = .ok s := by
  -- The equations of `render` are not used: with them ten to the power of `maxDigits` is computed.
  delta Value.render
  dsimp only
  rw [h]

/-! ## The tokens of a printed value -/

/-- A word alone is cut into one token. -/
theorem tokenize_word {w : Word} (hw : w.IsCut) :
    ∃ t last, tokenize w.text = [t, last] ∧ t.word = w ∧ last.kind = .endOfInput := by
  have hall : ∀ v ∈ [w], v.IsCut := fun v hv => List.mem_singleton.mp hv ▸ hw
  obtain ⟨ts, last, htok, hwords, hlast⟩ := tokenize_spell hall
  obtain ⟨t, rfl, ht⟩ := List.map_eq_singleton_iff.mp hwords
  have htext : spell [w] = w.text := by simp [spell]
  exact ⟨t, last, htext ▸ htok, ht, hlast⟩

/-- A minus in front of a digit is a sign: no longer symbol hides it. -/
theorem scan_minus {d : Char} {cs : List Char} (hd : Text.isDigit d = true) :
    Lexer.scan '-' (d :: cs) = ⟨.operator, "-", none, ['-'], d :: cs⟩ := by
  have harrow : d ≠ '>' := isDigit.ne hd (by decide)
  have hdot : d ≠ '.' := isDigit.ne hd (by decide)
  have hscan : Lexer.scan '-' (d :: cs) = Lexer.symbol '-' (d :: cs) := rfl
  rw [hscan]
  simp [Lexer.symbol, symbols, Lexer.symbolKind, delimiters, List.isPrefixOf, Ne.symm harrow, Ne.symm hdot]
  rfl

/-- A negative number is cut into its sign and the numeral behind it. -/
theorem tokenize_negative (n : Nat) :
    ∃ s t last, tokenize (String.ofList ('-' :: Number.digits n)) = [s, t, last] ∧
      s.isA .operator "-" = true ∧ t.word = ⟨.int, Number.writeNat n⟩ ∧ last.kind = .endOfInput := by
  obtain ⟨d, ds, hcons⟩ := List.exists_cons_of_ne_nil (Nat.toDigits_ne_nil (b := 10) (n := n))
  have hd : Text.isDigit d = true := toDigits_isDigit (hcons ▸ List.mem_cons_self ..)
  have htext : (Word.mk .int (Number.writeNat n)).text.toList ++ [] = d :: ds := by
    rw [Word.text_plain (by decide), Number.writeNat, String.toList_ofList, List.append_nil]
    exact hcons
  obtain ⟨fuel, t, pos, -, ht, hrest⟩ := @Word.IsCut.tokensFrom _ (isCut_int (n := n)) [] spaced_nil
    (d :: ds).length (Pos.first.after ['-']) (by rw [htext])
  rw [htext] at hrest
  refine ⟨⟨.operator, "-", .first, none⟩, t, ⟨.endOfInput, "", pos, none⟩, ?_, rfl, ht, rfl⟩
  have hblank : Text.isBlank '-' = false := by decide
  rw [tokenize, Number.digits, hcons, String.toList_ofList, List.length_cons, Lexer.tokensFrom, hblank]
  simp only [Bool.false_eq_true, if_false, scan_minus hd, hrest, Scan.token]
  cases fuel <;> rfl

/-! ## Texts of one expression -/

section

variable {source : String} {ts : List Token} {last : Token} {e : Node} {limit : Int} {types : Frame}
  {values : Env} {frames depth : Nat} {t : Typing} {v : Value} {c : Context} {env : Env}

/-- Tokens that derive an expression are read as that expression on its own. -/
theorem parse_expression (htok : tokenize source = ts ++ [last]) (hlast : last.kind = .endOfInput)
    (hts : ∀ t ∈ ts, t.kind ≠ .endOfInput ∧ t.kind ≠ .comment)
    (he : Derives nestingBudget .expression false ts e) :
    (parse source).errors = [] ∧ ∃ pos, (parse source).declarations = [.exprStmt pos e] := by
  obtain ⟨t, us, rfl, -⟩ := derives_opening nestingBudget .expression _ _ _ he
  have hsig : significant (t :: us) = t :: us :=
    List.filter_eq_self.mpr fun t ht => by simpa using (hts t ht).2
  have hdecls : Phrase.Declarations (Derives nestingBudget) (t :: us ++ [] ++ []) [.exprStmt t.pos e] :=
    .cons (.expression he) separators_nil (.inr nofun) .nil
  rw [List.append_nil, List.append_nil] at hdecls
  have hread : Parsed.collect nestingBudget last.pos (t :: us).length (t :: us) = ([.exprStmt t.pos e], []) :=
    (collect_eq_nil (Nat.le_refl _)).mpr (Phrase.Program.mk separators_nil hdecls)
  rw [parse, parseTokens, htok, parseWithin_append (fun t ht => (hts t ht).1) hlast, hsig, hread]
  exact ⟨rfl, t.pos, rfl⟩

/-- An expression on its own that passes the analysis and has a value is run without an error, and the value
is the only result. -/
theorem run_expression {pos : Pos} (herrors : (parse source).errors = [])
    (hdecls : (parse source).declarations = [.exprStmt pos e]) (hstarts : Starts limit)
    (hframes : frameBudget limit = frames + 3)
    (hdepth : analysisDepth = depth + 1) (hinfer : infer depth e ⟨.ofSeed types, []⟩ = .ok t c)
    (heval : eval limit (frames + 1) 0 e values = .ok v env) :
    ∃ r, run source types values limit = .ok r ∧ r.ok = true ∧ r.results = [⟨"-", v⟩] := by
  have hsucceeds : Succeeds limit (frameBudget limit) ⟨.ofSeed types, []⟩ values
      (parse source).declarations [("-", t)] [⟨"-", v⟩] c env := by
    rw [hdecls, hframes]
    refine .cons ?_ ?_ rfl .nil
    · rw [hdepth, infer]
      exact hinfer
    · rw [eval]
      exact heval
  obtain ⟨r, hrun, hok, hresults, -⟩ := run_of_succeeds herrors (fun _ => hstarts) hsucceeds
  exact ⟨r, hrun, hok, hresults⟩

end

/-- The default limit leaves frames for every evaluation. -/
theorem starts_defaultLimit : Starts defaultLimit := evaluate_eq (by decide) (by decide)

theorem frameBudget_defaultLimit : frameBudget defaultLimit = 10987 + 3 := by decide

theorem analysisDepth_eq : analysisDepth = 489 + 1 := rfl

/-- A word that is a literal is read as that. -/
theorem parse_literal (w : Word) (literal : Pos → Node) (hw : w.IsCut)
    (hprimary : ∀ L (t : Token), t.word = w → Phrase.Primary L false [t] (literal t.pos)) :
    (parse w.text).errors = [] ∧ ∃ pos q, (parse w.text).declarations = [.exprStmt pos (literal q)] := by
  obtain ⟨t, last, htok, ht, hlast⟩ := tokenize_word hw
  have hplain : ∀ u ∈ [t], u.kind ≠ .endOfInput ∧ u.kind ≠ .comment := by
    intro u hu
    obtain rfl := List.mem_singleton.mp hu
    have hkind : u.kind = w.kind := congrArg Word.kind ht
    exact ⟨hkind ▸ hw.kind_ne_endOfInput, hkind ▸ hw.significant⟩
  have he : Derives nestingBudget .expression false [t] (literal t.pos) :=
    derives_expression (n := 972) (derives_unary (n := 970) (hprimary _ t ht))
  have htok : tokenize w.text = [t] ++ [last] := htok
  obtain ⟨herrors, pos, hdecls⟩ := parse_expression htok hlast hplain he
  exact ⟨herrors, pos, t.pos, hdecls⟩

theorem primary_int {n : Nat} (hn : (Number.digits n).length ≤ Number.maxDigits) (L : Nonterminal → Language Node)
    (t : Token) (ht : t.word = ⟨.int, Number.writeNat n⟩) : Phrase.Primary L false [t] (.intLit t.pos n) := by
  obtain ⟨kind, lexeme, pos, note⟩ := t
  cases ht
  exact .int rfl (readInt?_writeNat hn)

theorem parse_natural {n : Nat} (hn : (Number.digits n).length ≤ Number.maxDigits) :
    (parse (Number.writeNat n)).errors = [] ∧
      ∃ pos q, (parse (Number.writeNat n)).declarations = [.exprStmt pos (.intLit q n)] :=
  parse_literal ⟨.int, Number.writeNat n⟩ (.intLit · n) isCut_int (primary_int hn)

section

variable (types : Frame) (values : Env)

/-- It is run as the value that it stands for. -/
theorem run_literal (w : Word) {v : Value} {k : Typing} (literal : Pos → Node) (hw : w.IsCut)
    (hprimary : ∀ L (t : Token), t.word = w → Phrase.Primary L false [t] (literal t.pos))
    (hinfer : ∀ pos n c, infer (n + 1) (literal pos) c = .ok k c)
    (heval : ∀ pos n env, eval defaultLimit (n + 3) 0 (literal pos) env = .ok v env) :
    ∃ r, run w.text types values defaultLimit = .ok r ∧ r.ok = true ∧ r.results = [⟨"-", v⟩] := by
  obtain ⟨herrors, pos, q, hdecls⟩ := parse_literal w literal hw hprimary
  exact run_expression herrors hdecls starts_defaultLimit frameBudget_defaultLimit analysisDepth_eq (hinfer ..)
    (heval ..)

theorem run_string (s : String) :
    ∃ r, run (Value.enquote '"' s) types values defaultLimit = .ok r ∧ r.ok = true ∧
      r.results = [⟨"-", .string s⟩] := by
  refine run_literal types values ⟨.string, s⟩ (k := some .string) (.stringLit · s) (isCut_string s) ?_
    (fun _ _ _ => rfl) fun _ _ _ => rfl
  rintro L ⟨kind, lexeme, pos, note⟩ ht
  cases ht
  exact .string rfl

theorem run_char (c : Char) :
    ∃ r, run (Value.enquote '\'' (String.singleton c)) types values defaultLimit = .ok r ∧ r.ok = true ∧
      r.results = [⟨"-", .char (String.singleton c)⟩] := by
  refine run_literal types values ⟨.char, String.singleton c⟩ (k := some .char)
    (.charLit · (String.singleton c)) (isCut_char c) ?_ (fun _ _ _ => rfl) fun _ _ _ => rfl
  rintro L ⟨kind, lexeme, pos, note⟩ ht
  cases ht
  exact .char rfl

variable {n : Nat}

theorem run_natural (hn : (Number.digits n).length ≤ Number.maxDigits) :
    ∃ r, run (Number.writeNat n) types values defaultLimit = .ok r ∧ r.ok = true ∧
      r.results = [⟨"-", .int n⟩] := by
  exact run_literal types values ⟨.int, Number.writeNat n⟩ (k := some .int) (.intLit · n) isCut_int
    (primary_int hn) (fun _ _ _ => rfl) fun _ _ _ => rfl

/-- A negative number is run as the opposite of the number behind its sign. -/
theorem run_negative (hn : (Number.digits n).length ≤ Number.maxDigits) :
    ∃ r, run (String.ofList ('-' :: Number.digits n)) types values defaultLimit = .ok r ∧ r.ok = true ∧
      r.results = [⟨"-", .int (-n)⟩] := by
  obtain ⟨s, t, last, htok, hs, ht, hlast⟩ := tokenize_negative n
  obtain ⟨hskind, hslex⟩ := Token.isA_iff.mp hs
  have htkind : t.kind = .int := congrArg Word.kind ht
  have hplain : ∀ u ∈ [s, t], u.kind ≠ .endOfInput ∧ u.kind ≠ .comment := by
    intro u hu
    rcases List.mem_cons.mp hu with rfl | hu
    · simp [hskind]
    · simp [List.mem_singleton.mp hu, htkind]
  have hprimary : Derives 969 .primary false [t] (.intLit t.pos n) := by
    refine Phrase.Primary.int htkind ?_
    rw [show t.lexeme = Number.writeNat n from congrArg Word.lexeme ht]
    exact readInt?_writeNat hn
  have hunary : Derives 972 .unary false [s, t] (.unary s.pos s.lexeme (.intLit t.pos n)) :=
    Phrase.Unary.sign (.inl hs) (derives_unary hprimary)
  have he : Derives nestingBudget .expression false [s, t] (.unary s.pos s.lexeme (.intLit t.pos n)) :=
    derives_expression hunary
  have htok : tokenize (String.ofList ('-' :: Number.digits n)) = [s, t] ++ [last] := htok
  obtain ⟨herrors, pos, hdecls⟩ := parse_expression htok hlast hplain he
  rw [hslex] at hdecls
  exact run_expression herrors hdecls starts_defaultLimit frameBudget_defaultLimit analysisDepth_eq rfl rfl

end

/-- Printed values read back: every text, every character and every whole number of not too many digits is
printed, and running what is printed comes to no error and to that value as the only result, whatever is
bound already. -/
theorem run_render {v : Value} (hv : v.Readable) (types : Frame) (values : Env) :
    ∃ text r, v.render = .ok text ∧ run text types values defaultLimit = .ok r ∧ r.ok = true ∧
      r.results = [⟨"-", v⟩] := by
  cases hv with
  | string s =>
    obtain ⟨r, hr⟩ := run_string types values s
    exact ⟨_, r, rfl, hr⟩
  | char c =>
    obtain ⟨r, hr⟩ := run_char types values c
    exact ⟨_, r, rfl, hr⟩
  | int n hn =>
    have hrender := render_int (showInt?_of_digits hn)
    refine ⟨Number.writeInt n, ?_⟩
    rw [Number.writeInt] at hrender ⊢
    by_cases hneg : n < 0
    · obtain ⟨r, hr⟩ := run_negative types values hn
      have hvalue : -(n.natAbs : Int) = n := by omega
      rw [hvalue] at hr
      rw [if_pos hneg] at hrender ⊢
      exact ⟨r, hrender, hr⟩
    · obtain ⟨r, hr⟩ := run_natural types values hn
      have hvalue : (n.natAbs : Int) = n := by omega
      rw [hvalue] at hr
      rw [if_neg hneg] at hrender ⊢
      exact ⟨r, hrender, hr⟩

/-- A quote, a backslash and a line end are read back, and so is a negative number. -/
theorem run_render_quote :
    Value.Readable (.string "say \"\\\n\"") ∧ Value.Readable (.int (-7)) ∧
    (∃ text r, (Value.string "say \"\\\n\"").render = .ok text ∧ run text [] [] defaultLimit = .ok r ∧
      r.ok = true ∧ r.results = [⟨"-", .string "say \"\\\n\""⟩]) ∧
    ∃ text r, (Value.int (-7)).render = .ok text ∧ run text [] [] defaultLimit = .ok r ∧ r.ok = true ∧
      r.results = [⟨"-", .int (-7)⟩] := by
  have hint : Value.Readable (.int (-7)) := .int (-7) (by decide)
  exact ⟨.string _, hint, run_render (.string _) [] [], run_render hint [] []⟩

end Camlet
