import Camlet.Number.Decimal
import Camlet.Token.Lexer

/-
  Numbers in source text. What the lexer takes for a number is spelled by ASCII digits, so reading it as
  a number cannot fail, but for whole numbers of too many digits.
-/

namespace Camlet

open Text (isDigit digitValue anyDigit?)

/-- A token that the lexer can give for some text. -/
def Lexed (t : Token) : Prop := ∃ c cs, Text.isBlank c = false ∧ (Lexer.scan c cs).token t.pos = t

/-! ## Runs of digits -/

theorem isDigit_iff {c : Char} : isDigit c = true ↔ 48 ≤ c.toNat ∧ c.toNat ≤ 57 := by
  simp only [isDigit, Bool.and_eq_true, decide_eq_true_eq]
  exact Iff.rfl

theorem isDigit.ne {c d : Char} (hc : isDigit c = true) (hd : isDigit d = false) : c ≠ d := by
  rintro rfl
  rw [hc] at hd
  cases hd

theorem isDigit.anyDigit? {c : Char} (h : isDigit c = true) : anyDigit? c = some (digitValue c) := by
  simp [Text.anyDigit?, h]

theorem isDigit.not_isNumeralBlank {c : Char} (h : isDigit c = true) :
    Number.isNumeralBlank c = false := by
  obtain ⟨h₁, h₂⟩ := isDigit_iff.mp h
  have hascii : c.val < 0x80 := by
    show c.val.toNat < 128
    exact Nat.lt_of_le_of_lt h₂ (by decide)
  have hspace : c ≠ ' ' := isDigit.ne h (by decide)
  have hcontrol : ¬ c.val ≤ 13 := by
    show ¬ c.val.toNat ≤ 13
    exact fun h' => absurd (Nat.le_trans h₁ h') (by decide)
  simp [Number.isNumeralBlank, hascii, hspace, hcontrol]

theorem isDigit.toLower_ne {c : Char} (h : isDigit c = true) : c.toLower ≠ 'i' ∧ c.toLower ≠ 'n' := by
  obtain ⟨h₁, h₂⟩ := isDigit_iff.mp h
  have hlower : c.toLower = c := by
    refine dif_neg ?_
    rintro ⟨h, -⟩
    have : 65 ≤ c.toNat := h
    omega
  rw [hlower]
  exact ⟨isDigit.ne h (by decide), isDigit.ne h (by decide)⟩

/-- A text that starts with no digit and no underscore. -/
def EndsDigits (cs : List Char) : Prop := ∀ c ∈ cs.head?, anyDigit? c = none ∧ c ≠ '_'

theorem endsDigits_nil : EndsDigits [] := by simp [EndsDigits]

theorem endsDigits_cons {c : Char} {cs : List Char} (h : anyDigit? c = none) (hc : c ≠ '_') :
    EndsDigits (c :: cs) := by
  simp [EndsDigits, h, hc]

/-- A run of ASCII digits is read as such, up to a character that ends it. -/
theorem splitDigits_append {ds rest : List Char} (hds : ∀ d ∈ ds, isDigit d = true)
    (hrest : EndsDigits rest) : Number.splitDigits (ds ++ rest) = (ds.map digitValue, rest) := by
  induction ds with
  | nil =>
    cases rest with
    | nil => rfl
    | cons c cs =>
      obtain ⟨hc, hne⟩ := hrest c rfl
      rw [List.nil_append, Number.splitDigits.eq_def]
      split <;> simp_all
  | cons d ds ih =>
    have hd : isDigit d = true := hds d (List.mem_cons_self ..)
    have ih := ih fun d hd => hds d (List.mem_cons_of_mem _ hd)
    have hnext : ∀ c, ds ++ rest ≠ '_' :: c := by
      intro cs h
      cases ds with
      | nil => exact (hrest '_' (by simp_all)).2 rfl
      | cons e ds =>
        have he : isDigit e = true := hds e (by simp)
        exact isDigit.ne he (d := '_') (by decide) (List.cons.inj h).1
    rw [List.cons_append, Number.splitDigits.eq_def]
    split
    next h => exact absurd (List.cons.inj h).1 (isDigit.ne hd (by decide))
    next h => exact absurd (List.cons.inj h).2 (hnext _)
    next c cs _ _ h =>
      obtain ⟨rfl, rfl⟩ := List.cons.inj h
      simp [isDigit.anyDigit? hd, ih]
    next h => cases h

/-- A text without numeral blanks is trimmed to itself. -/
theorem trimNumeral_eq {cs : List Char} (h : ∀ c ∈ cs, Number.isNumeralBlank c = false) :
    Number.trimNumeral cs = cs := by
  have hdrop : ∀ {ds : List Char}, (∀ c ∈ ds, Number.isNumeralBlank c = false) →
      ds.dropWhile Number.isNumeralBlank = ds := by
    intro ds hds
    cases ds with
    | nil => rfl
    | cons d ds => simp [hds d]
  rw [Number.trimNumeral, hdrop h, hdrop (by simpa using h), List.reverse_reverse]

theorem splitSign_digit {d : Char} {cs : List Char} (hd : isDigit d = true) :
    Number.splitSign (d :: cs) = (false, d :: cs) := by
  rw [Number.splitSign.eq_def]
  split
  next h => exact absurd (List.cons.inj h).1 (isDigit.ne hd (by decide))
  next h => exact absurd (List.cons.inj h).1 (isDigit.ne hd (by decide))
  next => rfl

theorem ofDigits_digitValue (ds : List Char) : Number.ofDigits (ds.map digitValue) = Nat.ofDigitChars 10 ds 0 := by
  rw [Number.ofDigits, List.foldl_map]
  rfl

/-- What holds of the signs and behind the sign holds of the whole text. -/
theorem forall_of_splitSign {p : Char → Prop} {cs : List Char} (hplus : p '+') (hminus : p '-')
    (h : ∀ c ∈ (Number.splitSign cs).2, p c) : ∀ c ∈ cs, p c := by
  unfold Number.splitSign at h
  split at h
  · exact List.forall_mem_cons.mpr ⟨hminus, h⟩
  · exact List.forall_mem_cons.mpr ⟨hplus, h⟩
  · exact h

/-- Digits are read as the number they spell, up to the length that is read. -/
theorem readInt?_digits {ds : List Char} (hne : ds ≠ []) (hds : ∀ d ∈ ds, isDigit d = true) :
    Number.readInt? (String.ofList ds) =
      if ds.length ≤ Number.maxDigits then some (Nat.ofDigitChars 10 ds 0 : Int) else none := by
  obtain ⟨d, ds, rfl⟩ := List.exists_cons_of_ne_nil hne
  have hd : isDigit d = true := hds d (List.mem_cons_self ..)
  have htrim : Number.trimNumeral (d :: ds) = d :: ds :=
    trimNumeral_eq fun c hc => isDigit.not_isNumeralBlank (hds c hc)
  have hsplit : Number.splitDigits (d :: ds) = ((d :: ds).map digitValue, []) := by
    simpa using splitDigits_append hds endsDigits_nil
  rw [← ofDigits_digitValue]
  simp only [Number.readInt?, String.toList_ofList, htrim, splitSign_digit hd, hsplit]
  simp only [List.map_cons, List.length_cons, List.length_map, Number.signed]
  rfl

/-! ## The texts of numbers -/

/-- A point and digits, or nothing. -/
def IsFraction (cs : List Char) : Prop :=
  cs = [] ∨ ∃ ds, cs = '.' :: ds ∧ ds ≠ [] ∧ ∀ d ∈ ds, isDigit d = true

/-- A mark, perhaps a sign, and digits; or nothing. -/
def IsExponent (cs : List Char) : Prop :=
  cs = [] ∨ ∃ e sign ds, cs = e :: sign ++ ds ∧ (e = 'e' ∨ e = 'E') ∧
    (sign = [] ∨ sign = ['+'] ∨ sign = ['-']) ∧ ds ≠ [] ∧ ∀ d ∈ ds, isDigit d = true

/-- A number as the lexer cuts it. -/
structure IsNumber (whole fraction exponent : List Char) : Prop where
  nonempty : whole ≠ []
  whole : ∀ d ∈ whole, isDigit d = true
  fraction : IsFraction fraction
  exponent : IsExponent exponent

theorem IsExponent.endsDigits {cs : List Char} (h : IsExponent cs) : EndsDigits cs := by
  rcases h with rfl | ⟨e, sign, ds, rfl, rfl | rfl, -⟩
  · exact endsDigits_nil
  · exact endsDigits_cons (by decide) (by decide)
  · exact endsDigits_cons (by decide) (by decide)

theorem IsFraction.endsDigits {cs ds : List Char} (h : IsFraction cs) (hd : EndsDigits ds) :
    EndsDigits (cs ++ ds) := by
  rcases h with rfl | ⟨fs, rfl, -⟩
  · exact hd
  · exact endsDigits_cons (by decide) (by decide)

/-- What the exponent of a decimal stands for. -/
def exponentValue : List Char → Int
  | _ :: '-' :: ds => -Nat.ofDigitChars 10 ds 0
  | _ :: '+' :: ds => Nat.ofDigitChars 10 ds 0
  | _ :: ds => Nat.ofDigitChars 10 ds 0
  | [] => 0

theorem exponentValue_digit {e d : Char} {ds : List Char} (hd : isDigit d = true) :
    exponentValue (e :: d :: ds) = Nat.ofDigitChars 10 (d :: ds) 0 := by
  rw [exponentValue.eq_def]
  split
  next h => exact absurd (List.cons.inj (List.cons.inj h).2).1 (isDigit.ne hd (by decide))
  next h => exact absurd (List.cons.inj (List.cons.inj h).2).1 (isDigit.ne hd (by decide))
  next h => rw [(List.cons.inj h).2]
  next h => cases h

theorem IsExponent.readExponent? {cs : List Char} (h : IsExponent cs) :
    Number.readExponent? cs = some (exponentValue cs) := by
  rcases h with rfl | ⟨e, sign, ds, rfl, he, hsign, hne, hds⟩
  · rfl
  · obtain ⟨d, ds, rfl⟩ := List.exists_cons_of_ne_nil hne
    have hsplit : Number.splitDigits (d :: ds) = ((d :: ds).map digitValue, []) := by
      simpa using splitDigits_append hds endsDigits_nil
    have hd : isDigit d = true := hds d (List.mem_cons_self ..)
    have hvalue := ofDigits_digitValue (d :: ds)
    rw [List.map_cons] at hsplit hvalue
    rw [List.cons_append, Number.readExponent?, if_pos he]
    rcases hsign with rfl | rfl | rfl
    · rw [List.nil_append, splitSign_digit hd, exponentValue_digit hd]
      simp [hsplit, hvalue, Number.signed]
    · simp [Number.splitSign, hsplit, hvalue, Number.signed, exponentValue]
    · simp [Number.splitSign, hsplit, hvalue, Number.signed, exponentValue]

theorem IsNumber.forall {whole fraction exponent : List Char} (h : IsNumber whole fraction exponent) {p : Char → Prop}
    (hdigit : ∀ c, isDigit c = true → p c) (hmark : p '.' ∧ p 'e' ∧ p 'E' ∧ p '+' ∧ p '-') :
    ∀ c ∈ whole ++ fraction ++ exponent, p c := by
  obtain ⟨-, hds, hfrac, hexp⟩ := h
  obtain ⟨hpoint, hlower, hupper, hplus, hminus⟩ := hmark
  intro c hc
  rw [List.append_assoc, List.mem_append, List.mem_append] at hc
  rcases hc with hc | hc | hc
  · exact hdigit c (hds c hc)
  · rcases hfrac with rfl | ⟨fs, rfl, -, hfs⟩
    · cases hc
    · rcases List.mem_cons.mp hc with rfl | hc
      · exact hpoint
      · exact hdigit c (hfs c hc)
  · rcases hexp with rfl | ⟨e, sign, es, rfl, he, hsign, -, hes⟩
    · cases hc
    · rw [List.cons_append, List.mem_cons, List.mem_append] at hc
      rcases hc with rfl | hc | hc
      · rcases he with rfl | rfl
        · exact hlower
        · exact hupper
      · rcases hsign with rfl | rfl | rfl
        · cases hc
        · obtain rfl := List.mem_singleton.mp hc
          exact hplus
        · obtain rfl := List.mem_singleton.mp hc
          exact hminus
      · exact hdigit c (hes c hc)

theorem IsNumber.not_isNumeralBlank {whole fraction exponent : List Char}
    (h : IsNumber whole fraction exponent) :
    ∀ c ∈ whole ++ fraction ++ exponent, Number.isNumeralBlank c = false :=
  h.forall (fun _ => isDigit.not_isNumeralBlank) (by decide)

theorem IsNumber.readUnsigned? {whole fraction exponent : List Char}
    (h : IsNumber whole fraction exponent) (negative : Bool) :
    Number.readUnsigned? negative (whole ++ fraction ++ exponent) =
      some (Number.ofDecimal negative (Nat.ofDigitChars 10 (whole ++ fraction.drop 1) 0)
        (exponentValue exponent - (fraction.drop 1).length)) := by
  obtain ⟨hne, hds, hfrac, hexp⟩ := h
  have hsplit := splitDigits_append hds (hfrac.endsDigits hexp.endsDigits)
  have hwhole : (whole.map digitValue).isEmpty = false := by simpa using hne
  have hx := hexp.readExponent?
  rw [List.append_assoc, ← ofDigits_digitValue, List.map_append]
  rcases hfrac with rfl | ⟨fs, rfl, -, hfs⟩
  · rw [List.nil_append] at hsplit ⊢
    rcases hexp with rfl | ⟨e, sign, es, rfl, he, -⟩
    · simp only [Number.readUnsigned?, hsplit]
      simp [hx, hwhole]
    · have hpoint : e ≠ '.' := by rcases he with rfl | rfl <;> decide
      rw [List.cons_append] at hsplit hx ⊢
      simp [Number.readUnsigned?, hsplit, hx, hwhole, hpoint]
  · have hsplit' := splitDigits_append hfs hexp.endsDigits
    rw [List.cons_append] at hsplit ⊢
    simp [Number.readUnsigned?, hsplit, hsplit', hx, hwhole]

/-- A text that the lexer takes for a number is one, and so is one with a sign in front. -/
theorem IsNumber.readFloat?_signed {whole fraction exponent cs : List Char} {negative : Bool}
    (h : IsNumber whole fraction exponent) (hblank : ∀ c ∈ cs, Number.isNumeralBlank c = false)
    (hsign : Number.splitSign cs = (negative, whole ++ fraction ++ exponent)) :
    Number.readFloat? (String.ofList cs) =
      some (Number.ofDecimal negative (Nat.ofDigitChars 10 (whole ++ fraction.drop 1) 0)
        (exponentValue exponent - (fraction.drop 1).length)) := by
  have hread := h.readUnsigned? negative
  obtain ⟨hne, hds, -, -⟩ := h
  obtain ⟨d, ds, rfl⟩ := List.exists_cons_of_ne_nil hne
  have hd : isDigit d = true := hds d (List.mem_cons_self ..)
  obtain ⟨rest, hrest⟩ : ∃ rest, d :: ds ++ fraction ++ exponent = d :: rest := ⟨_, rfl⟩
  have hword : ∀ w : String, w.toList.head? = some 'i' ∨ w.toList.head? = some 'n' →
      String.ofList ((d :: rest).map Char.toLower) ≠ w := by
    rintro w hw rfl
    have := isDigit.toLower_ne hd
    simp_all
  rw [hrest] at hread hsign
  simp only [Number.readFloat?, String.toList_ofList, trimNumeral_eq hblank, hsign]
  rw [if_neg (not_or.mpr ⟨hword "inf" (by decide), hword "infinity" (by decide)⟩),
    if_neg (hword "nan" (by decide))]
  exact hread

theorem IsNumber.readFloat? {whole fraction exponent : List Char}
    (h : IsNumber whole fraction exponent) :
    Number.readFloat? (String.ofList (whole ++ fraction ++ exponent)) =
      some (Number.ofDecimal false (Nat.ofDigitChars 10 (whole ++ fraction.drop 1) 0)
        (exponentValue exponent - (fraction.drop 1).length)) := by
  refine h.readFloat?_signed h.not_isNumeralBlank ?_
  obtain ⟨d, ds, rfl⟩ := List.exists_cons_of_ne_nil h.nonempty
  exact splitSign_digit (h.whole d (List.mem_cons_self ..))

/-! ## What the lexer cuts -/

theorem takeWhile_isDigit (cs : List Char) : ∀ d ∈ cs.takeWhile isDigit, isDigit d = true :=
  List.all_eq_true.mp List.all_takeWhile

/-- At most one character is taken for a sign. -/
theorem takeWhile_sign (cs : List Char) :
    let sign := (cs.take 1).takeWhile fun c => c == '+' || c == '-'
    sign = [] ∨ sign = ['+'] ∨ sign = ['-'] := by
  cases cs with
  | nil => exact .inl rfl
  | cons c cs =>
    by_cases hplus : c = '+'
    · simp [hplus]
    · by_cases hminus : c = '-' <;> simp [hplus, hminus]

theorem exponent_number {kind : TokenKind} {span cs whole fraction : List Char}
    (hspan : span = whole ++ fraction) (hne : whole ≠ []) (hds : ∀ d ∈ whole, isDigit d = true)
    (hfrac : IsFraction fraction) (hkind : kind = .int → fraction = [])
    (herror : (Lexer.exponent kind span cs).kind ≠ .error) :
    ∃ ex, IsNumber whole fraction ex ∧
      (Lexer.exponent kind span cs).lexeme = String.ofList (whole ++ fraction ++ ex) ∧
      ((Lexer.exponent kind span cs).kind = .int → fraction = [] ∧ ex = []) := by
  have hplain : ∃ ex, IsNumber whole fraction ex ∧
      String.ofList span = String.ofList (whole ++ fraction ++ ex) ∧
      (kind = .int → fraction = [] ∧ ex = []) :=
    ⟨[], ⟨hne, hds, hfrac, .inl rfl⟩, by simp [hspan], fun h => ⟨hkind h, rfl⟩⟩
  cases cs with
  | nil => exact hplain
  | cons e cs =>
    by_cases he : e = 'e' ∨ e = 'E'
    · simp only [Lexer.exponent, if_pos he] at herror ⊢
      have hsign := takeWhile_sign cs
      generalize (cs.take 1).takeWhile (fun c => c == '+' || c == '-') = sign at herror hsign ⊢
      have hes := takeWhile_isDigit (cs.drop sign.length)
      generalize (cs.drop sign.length).takeWhile isDigit = es at herror hes ⊢
      split at herror
      · exact absurd rfl herror
      next hempty =>
        rw [if_neg hempty]
        have hnumber : IsNumber whole fraction (e :: sign ++ es) :=
          ⟨hne, hds, hfrac, .inr ⟨e, sign, es, rfl, he, hsign, by simpa using hempty, hes⟩⟩
        exact ⟨_, hnumber, by simp [Scan.plain, hspan], nofun⟩
    · simp only [Lexer.exponent, if_neg he]
      exact hplain

theorem number_number {c : Char} {cs : List Char} (hc : isDigit c = true)
    (herror : (Lexer.number (c :: cs)).kind ≠ .error) :
    ∃ whole fraction ex, IsNumber whole fraction ex ∧
      (Lexer.number (c :: cs)).lexeme = String.ofList (whole ++ fraction ++ ex) ∧
      ((Lexer.number (c :: cs)).kind = .int → fraction = [] ∧ ex = []) := by
  have hne : (c :: cs).takeWhile isDigit ≠ [] := by simp [hc]
  have hds := takeWhile_isDigit (c :: cs)
  rw [Lexer.number] at herror ⊢
  generalize (c :: cs).takeWhile isDigit = whole at hne hds herror ⊢
  dsimp only at herror ⊢
  split at herror
  next rest _ =>
    split at herror
    · exact absurd rfl herror
    next hfs =>
      rw [if_neg hfs]
      refine ⟨whole, '.' :: rest.takeWhile isDigit, ?_⟩
      exact exponent_number rfl hne hds
        (.inr ⟨_, rfl, by simpa using hfs, takeWhile_isDigit rest⟩) nofun herror
  next =>
    exact ⟨whole, [], exponent_number (by simp) hne hds (.inl rfl) (fun _ => rfl) herror⟩

theorem comment_kind (cs : List Char) : (Lexer.comment cs).kind ∈ [TokenKind.comment, .error] := by
  rw [Lexer.comment]
  split <;> simp [Scan.plain, Scan.malformed]

theorem string_kind (cs : List Char) : (Lexer.string cs).kind ∈ [TokenKind.string, .error] := by
  rw [Lexer.string]
  split <;> simp [Scan.malformed]

theorem charEnd_kind (c : Char) (span cs : List Char) :
    (Lexer.charEnd c span cs).kind ∈ [TokenKind.char, .error] := by
  rw [Lexer.charEnd.eq_def]
  split <;> simp [Scan.malformed]

theorem char_kind (cs : List Char) : (Lexer.char cs).kind ∈ [TokenKind.char, .error] := by
  rw [Lexer.char.eq_def]
  split <;> first | exact charEnd_kind _ _ _ | simp [Scan.malformed]

theorem backtick_kind (cs : List Char) :
    (Lexer.backtick cs).kind ∈ [TokenKind.backtickIdent, .error] := by
  simp only [Lexer.backtick]
  split
  · simp [Scan.malformed]
  · split <;> simp [Scan.malformed]

theorem word_kind (cs : List Char) :
    (Lexer.word cs).kind ∈ [TokenKind.keyword, .operator, .identifier] := by
  simp only [Lexer.word, Scan.plain, Lexer.wordKind]
  split
  · simp
  · split <;> simp

theorem symbol_kind (c : Char) (cs : List Char) :
    (Lexer.symbol c cs).kind ∈ [TokenKind.delimiter, .operator, .error] := by
  rw [Lexer.symbol]
  split
  · simp only [Lexer.symbolKind]
    split <;> simp
  · simp [Scan.malformed]

theorem exponent_kind (kind : TokenKind) (span cs : List Char) :
    (Lexer.exponent kind span cs).kind ∈ [kind, .float, .error] := by
  rw [Lexer.exponent.eq_def]
  split
  · simp [Scan.plain]
  · split
    · dsimp only
      split <;> simp [Scan.plain, Scan.malformed]
    · simp [Scan.plain]

theorem number_kind (cs : List Char) : (Lexer.number cs).kind ∈ [TokenKind.int, .float, .error] := by
  rw [Lexer.number]
  split
  · dsimp only
    split
    · simp [Scan.malformed]
    · exact List.mem_cons_of_mem _ (by simpa using exponent_kind .float _ _)
  · exact exponent_kind _ _ _

/-- The lexer gives a number for a text that starts with a digit only. -/
theorem scan_number {c : Char} {cs : List Char}
    (h : (Lexer.scan c cs).kind = .int ∨ (Lexer.scan c cs).kind = .float) :
    isDigit c = true ∧ Lexer.scan c cs = Lexer.number (c :: cs) := by
  have hcomment := comment_kind (cs.drop 1)
  have hstring := string_kind cs
  have hchar := char_kind cs
  have hbacktick := backtick_kind cs
  have hword := word_kind (c :: cs)
  have hsymbol := symbol_kind c cs
  unfold Lexer.scan at h ⊢
  grind

theorem scan_kind (c : Char) (cs : List Char) : (Lexer.scan c cs).kind ≠ .endOfInput := by
  have hcomment := comment_kind (cs.drop 1)
  have hstring := string_kind cs
  have hchar := char_kind cs
  have hbacktick := backtick_kind cs
  have hnumber := number_kind (c :: cs)
  have hword := word_kind (c :: cs)
  have hsymbol := symbol_kind c cs
  unfold Lexer.scan
  grind

theorem Lexed.kind_ne_endOfInput {t : Token} (h : Lexed t) : t.kind ≠ .endOfInput := by
  obtain ⟨c, cs, -, ht⟩ := h
  rw [← ht]
  exact scan_kind c cs

/-- The number that a lexed numeral spells is read, if it is not too long. -/
theorem Lexed.readInt? {t : Token} (h : Lexed t) (hk : t.kind = .int) :
    Number.readInt? t.lexeme =
      if t.lexeme.length ≤ Number.maxDigits then some (Nat.ofDigitChars 10 t.lexeme.toList 0 : Int)
      else none := by
  obtain ⟨c, cs, -, ht⟩ := h
  have hkind : (Lexer.scan c cs).kind = .int := by rw [← hk, ← ht]; rfl
  obtain ⟨hc, hscan⟩ := scan_number (.inl hkind)
  rw [hscan] at ht hkind
  obtain ⟨whole, fraction, ex, hnumber, hlexeme, hint⟩ := number_number hc (by rw [hkind]; nofun)
  obtain ⟨rfl, rfl⟩ := hint hkind
  have hlexeme' : t.lexeme = String.ofList whole := by
    rw [List.append_nil, List.append_nil] at hlexeme
    rw [← hlexeme, ← ht]
    rfl
  rw [hlexeme', readInt?_digits hnumber.nonempty hnumber.whole]
  simp

/-- A lexed decimal is the text of a number. -/
theorem Lexed.isNumber {t : Token} (h : Lexed t) (hk : t.kind = .float) :
    ∃ whole fraction exponent, IsNumber whole fraction exponent ∧
      t.lexeme = String.ofList (whole ++ fraction ++ exponent) := by
  obtain ⟨c, cs, -, ht⟩ := h
  have hkind : (Lexer.scan c cs).kind = .float := by rw [← hk, ← ht]; rfl
  obtain ⟨hc, hscan⟩ := scan_number (.inr hkind)
  rw [hscan] at ht hkind
  obtain ⟨whole, fraction, ex, hnumber, hlexeme, -⟩ := number_number hc (by rw [hkind]; nofun)
  exact ⟨whole, fraction, ex, hnumber, by rw [← ht]; exact hlexeme⟩

end Camlet
