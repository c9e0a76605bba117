import Camlet.Proofs.Acceptance
import Camlet.Proofs.Printing

/-
  Reading what was printed. The words of a printed tree derive that tree, but for its places, and each
  step down the tree takes thirteen rules at most: eleven lead from an expression to the one in its
  brackets, and the form around the brackets takes one more, or two if it binds what they hold. So printed
  declarations are read back as they were, unless they are nested beyond the budget.
-/

namespace Camlet

/-! ## Words of tokens -/

theorem word_eq {t : Token} {w : Word} : t.word = w ↔ t.isA w.kind w.lexeme = true := by
  rw [Token.isA_iff]
  cases w
  simp [Token.word]

/-- Tokens that are spelled by the given words. -/
def Spells (ts : List Token) (ws : List Word) : Prop := ts.map Token.word = ws

theorem spells_cons {ts : List Token} {w : Word} {ws : List Word} :
    Spells ts (w :: ws) ↔ ∃ t us, ts = t :: us ∧ t.isA w.kind w.lexeme = true ∧ Spells us ws := by
  simp [Spells, List.map_eq_cons_iff, word_eq]

theorem spells_append {ts : List Token} {vs ws : List Word} :
    Spells ts (vs ++ ws) ↔ ∃ us us', ts = us ++ us' ∧ Spells us vs ∧ Spells us' ws := by
  simp [Spells, List.map_eq_append_iff]

theorem spells_nil {ts : List Token} : Spells ts [] ↔ ts = [] := by simp [Spells]

theorem spells_bracket {ts : List Token} {ws : List Word} (h : Spells ts (Word.bracket ws)) :
    ∃ o es c, ts = o :: es ++ [c] ∧ o.isA .delimiter "(" = true ∧ Spells es ws ∧
      c.isA .delimiter ")" = true := by
  obtain ⟨o, us, rfl, ho, hus⟩ := spells_cons.mp h
  obtain ⟨es, cs, rfl, hes, hcs⟩ := spells_append.mp hus
  obtain ⟨c, vs, rfl, hc, hvs⟩ := spells_cons.mp hcs
  obtain rfl := spells_nil.mp hvs
  exact ⟨o, es, c, rfl, ho, hes, hc⟩

/-! ## Derivations of printed expressions -/

/-- An operand of unary signs is one of every level of operators. -/
theorem derives_level {n : Nat} {ts : List Token} {e : Node} (h : Derives n .unary false ts e)
    (levels : List (List String)) : Derives (n + 1 + levels.length) (.level levels) false ts e := by
  induction levels with
  | nil => exact h
  | cons operators levels ih => exact Phrase.Level.operand ih

theorem derives_unary {n : Nat} {ts : List Token} {e : Node} (h : Derives n .primary false ts e) :
    Derives (n + 2) .unary false ts e :=
  Phrase.Unary.application (Phrase.Application.callee h)

/-- Operators and applications are expressions. -/
theorem derives_expression {n : Nat} {ts : List Token} {e : Node} (h : Derives n .unary false ts e) :
    Derives (n + 8) .expression false ts e :=
  Phrase.Expression.level (derives_level h operatorLevels)

/-- What a binding binds is an expression, one rule further in. -/
theorem derives_bound {n : Nat} {loose : Bool} {ts : List Token} {e : Node}
    (h : Derives n .expression loose ts e) : Derives (n + 1) .bound loose ts e := h

/-- Two operands with an operator between them are derived at the level of the operator. -/
theorem derives_binary {n : Nat} {t : Token} {ls rs : List Token} {l r : Node} {levels : List (List String)}
    (ht : t.kind = .operator) (hmem : t.lexeme ∈ levels.flatten) (hor : t.lexeme ≠ "or")
    (hl : Derives n .unary false ls l) (hr : Derives n .unary false rs r) :
    Derives (n + 1 + levels.length) (.level levels) false (ls ++ t :: rs)
      (.binary l.pos t.lexeme l r) := by
  induction levels with
  | nil => simp at hmem
  | cons operators levels ih =>
    by_cases hop : t.lexeme ∈ operators
    · have hoperator : Phrase.Operator operators t t.lexeme := ⟨.inl ht, hop, (if_neg hor).symm⟩
      exact Phrase.Level.binary (.operand (derives_level hl levels)) hoperator (derives_level hr levels)
    · have hmem' : t.lexeme ∈ levels.flatten := by
        simpa [List.flatten_cons, hop] using hmem
      exact Phrase.Level.operand (ih hmem')

/-- Tokens with the words of an expression derive it, but for its places, from some nesting on. -/
def ReadsAs (n : Nat) (e : Node) : Prop :=
  ∀ m ≥ n, ∀ ts, Spells ts e.words →
    ∃ loose e', Derives m .expression loose ts e' ∧ e'.unplaced = e.unplaced

section

variable {n m : Nat} {e : Node} {ts : List Token}

theorem ReadsAs.primary (h : ReadsAs n e) (hm : n ≤ m) (hts : Spells ts (Word.bracket e.words)) :
    ∃ e', Derives (m + 1) .primary false ts e' ∧ e'.unplaced = e.unplaced := by
  obtain ⟨o, es, c, rfl, ho, hes, hc⟩ := spells_bracket hts
  obtain ⟨loose, e', he, heq⟩ := h m hm es hes
  exact ⟨e', .bracketed ho he hc, heq⟩

theorem ReadsAs.unary (h : ReadsAs n e) (hm : n ≤ m) (hts : Spells ts (Word.bracket e.words)) :
    ∃ e', Derives (m + 3) .unary false ts e' ∧ e'.unplaced = e.unplaced := by
  obtain ⟨e', he, heq⟩ := h.primary hm hts
  exact ⟨e', derives_unary he, heq⟩

theorem ReadsAs.expression (h : ReadsAs n e) (hm : n ≤ m) (hts : Spells ts (Word.bracket e.words)) :
    ∃ e', Derives (m + 11) .expression false ts e' ∧ e'.unplaced = e.unplaced := by
  obtain ⟨e', he, heq⟩ := h.unary hm hts
  exact ⟨e', derives_expression he, heq⟩

theorem ReadsAs.bound (h : ReadsAs n e) (hm : n ≤ m) (hts : Spells ts (Word.bracket e.words)) :
    ∃ e', Derives (m + 12) .bound false ts e' ∧ e'.unplaced = e.unplaced := by
  obtain ⟨e', he, heq⟩ := h.expression hm hts
  exact ⟨e', derives_bound he, heq⟩

end

theorem exists_steps {n m k : Nat} (h : n + k ≤ m) : ∃ l, n ≤ l ∧ m = l + k :=
  ⟨m - k, Nat.le_sub_of_add_le h, (Nat.sub_add_cancel (Nat.le_trans (Nat.le_add_left k n) h)).symm⟩

/-! ### One lemma for each construct -/

section

attribute [local simp] Node.words Node.unplaced

variable {n : Nat}

theorem readsAs_cond (pos : Pos) {c t e : Node} (hc : ReadsAs n c) (ht : ReadsAs n t)
    (he : ReadsAs n e) : ReadsAs (n + 12) (.cond pos c t e) := by
  intro m hm ts hts
  obtain ⟨k, hk, rfl⟩ := exists_steps hm
  simp only [Node.words, List.cons_append, List.append_assoc] at hts
  obtain ⟨i, us, rfl, hi, hts⟩ := spells_cons.mp hts
  obtain ⟨cs, us, rfl, hcs, hts⟩ := spells_append.mp hts
  obtain ⟨th, us, rfl, hth, hts⟩ := spells_cons.mp hts
  obtain ⟨as, us, rfl, has, hts⟩ := spells_append.mp hts
  obtain ⟨el, bs, rfl, hel, hbs⟩ := spells_cons.mp hts
  obtain ⟨c', hc', hceq⟩ := hc.expression hk hcs
  obtain ⟨t', ht', hteq⟩ := ht.expression hk has
  obtain ⟨e', he', heeq⟩ := he.expression hk hbs
  have hcond : Phrase.Cond (Derives (k + 11)) i.pos _ _ _ := .mk hc' hth ht' hel he'
  rw [List.append_assoc] at hcond
  exact ⟨_, _, .cond hi hcond, by simp [hceq, hteq, heeq]⟩

/-- Trees that differ in their places only are functions alike. -/
theorem isLambda_unplaced (e : Node) : e.unplaced.isLambda = e.isLambda := by
  cases e <;> rfl

theorem params_words {ps : List String} (hnames : (ps.filter (· ≠ "_")).Nodup) {ts : List Token}
    (hts : Spells ts (ps.map Word.name)) : Phrase.Params ts ∧ ts.map (·.lexeme) = ps := by
  have hlex : ts.map (·.lexeme) = ps := by
    have := congrArg (List.map Word.lexeme) hts
    simpa [Function.comp_def, Token.word, Word.name] using this
  refine ⟨⟨?_, by rwa [hlex]⟩, hlex⟩
  intro t ht
  have hmem : t.word ∈ ps.map Word.name := hts ▸ List.mem_map_of_mem ht
  obtain ⟨p, -, hp⟩ := List.mem_map.mp hmem
  exact (congrArg Word.kind hp).symm

/-- The words of a binding, recursive or not, are one. -/
theorem binding_words {k : Nat} (hk : n ≤ k) {r : Bool} {x : String} (params : List String) {v : Node}
    (hv : ReadsAs n v) (hnames : (params.filter (· ≠ "_")).Nodup)
    (hlam : r = true → params = [] → v.isLambda = true) {rs ps vs : List Token} {name eq : Token}
    (hrs : Spells rs (Word.recursive r))
    (hname : name.isA (Word.name x).kind (Word.name x).lexeme = true)
    (hps : Spells ps (params.map Word.name)) (heq : eq.isA .operator "=" = true)
    (hvs : Spells vs (Word.bracket v.words)) :
    ∃ v', Phrase.Binding (Derives (k + 12)) false (rs ++ name :: ps ++ eq :: vs) ⟨r, x, params, v'⟩ ∧
      v'.unplaced = v.unplaced := by
  obtain ⟨v', hv', hveq⟩ := hv.bound hk hvs
  obtain ⟨hkind, rfl⟩ := Token.isA_iff.mp hname
  obtain ⟨hparams, rfl⟩ := params_words hnames hps
  cases r with
  | false =>
    obtain rfl := spells_nil.mp hrs
    exact ⟨v', .plain hkind hparams heq hv', hveq⟩
  | true =>
    obtain ⟨rec, us, rfl, hrec, hus⟩ := spells_cons.mp hrs
    obtain rfl := spells_nil.mp hus
    have hlam' : ps = [] → ∃ pos p b, v' = .lambda pos p b := by
      rintro rfl
      rw [← Node.isLambda_iff, ← isLambda_unplaced, hveq, isLambda_unplaced, hlam rfl rfl]
    exact ⟨v', .recursive hrec hkind hparams heq hv' hlam', hveq⟩

theorem readsAs_letIn (pos : Pos) {x : String} {v b : Node} {r : Bool} (hv : ReadsAs n v)
    (hlam : r = true → v.isLambda = true) (hb : ReadsAs n b) :
    ReadsAs (n + 13) (.letIn pos x v b r) := by
  intro m hm ts hts
  obtain ⟨k, hk, rfl⟩ := exists_steps hm
  simp only [Node.words, List.cons_append, List.append_assoc] at hts
  obtain ⟨l, us, rfl, hl, hts⟩ := spells_cons.mp hts
  obtain ⟨rs, us, rfl, hrs, hts⟩ := spells_append.mp hts
  obtain ⟨name, us, rfl, hname, hts⟩ := spells_cons.mp hts
  obtain ⟨eq, us, rfl, heq, hts⟩ := spells_cons.mp hts
  obtain ⟨vs, us, rfl, hvs, hts⟩ := spells_append.mp hts
  obtain ⟨i, es, rfl, hi, hes⟩ := spells_cons.mp hts
  obtain ⟨b', hb', hbeq⟩ := hb.expression (Nat.le_succ_of_le hk) hes
  -- Locally a function is bound as one of its parameters, so the binding has none of its own.
  have hnone : Spells [] (([] : List String).map Word.name) := spells_nil.mpr rfl
  obtain ⟨v', hbind, hveq⟩ := binding_words hk [] hv .nil (fun hr _ => hlam hr) hrs hname hnone heq hvs
  have hlet : Phrase.LetIn (Derives (k + 12)) l.pos _ _ _ := .mk hbind hi hb' .body
  exact ⟨_, _, .letIn hl (by simpa using hlet), by simp [hveq, hbeq]⟩

theorem readsAs_lambda (pos : Pos) {x : String} {b : Node} (hb : ReadsAs n b) :
    ReadsAs (n + 12) (.lambda pos x b) := by
  intro m hm ts hts
  obtain ⟨k, hk, rfl⟩ := exists_steps hm
  obtain ⟨f, us, rfl, hf, hts⟩ := spells_cons.mp hts
  obtain ⟨name, us, rfl, hname, hts⟩ := spells_cons.mp hts
  obtain ⟨arrow, es, rfl, harrow, hes⟩ := spells_cons.mp hts
  obtain ⟨b', hb', hbeq⟩ := hb.expression hk hes
  obtain ⟨hkind, hx⟩ := Token.isA_iff.mp hname
  have hparams : Phrase.Params [name] := by
    refine ⟨by simpa [Word.name] using hkind, ?_⟩
    by_cases h : name.lexeme = "_" <;> simp [h]
  have hlambda : Phrase.Lambda (Derives (k + 11)) f.pos _ _ _ :=
    .mk (List.cons_ne_nil name []) hparams harrow hb' (.param .body)
  exact ⟨_, _, .lambda hf hlambda, by simp [hx, hbeq, Word.name]⟩

theorem readsAs_apply (pos : Pos) {f a : Node} (hf : ReadsAs n f) (ha : ReadsAs n a) :
    ReadsAs (n + 12) (.apply pos f a) := by
  intro m hm ts hts
  obtain ⟨k, hk, rfl⟩ := exists_steps hm
  obtain ⟨fs, as, rfl, hfs, has⟩ := spells_append.mp hts
  obtain ⟨f', hf', hfeq⟩ := hf.primary (Nat.le_succ_of_le hk) hfs
  obtain ⟨a', ha', haeq⟩ := ha.primary (Nat.le_succ_of_le hk) has
  have happly : Derives (k + 4) .unary false (fs ++ as) (.apply f'.pos f' a') :=
    Phrase.Unary.application (Phrase.Application.argument (.callee hf') ha')
  exact ⟨_, _, derives_expression happly, by simp [hfeq, haeq]⟩

theorem readsAs_binary (pos : Pos) {o : String} {l r : Node} (ho : o ∈ operatorLevels.flatten)
    (hor : o ≠ "or") (hl : ReadsAs n l) (hr : ReadsAs n r) :
    ReadsAs (n + 12) (.binary pos o l r) := by
  intro m hm ts hts
  obtain ⟨k, hk, rfl⟩ := exists_steps hm
  obtain ⟨ls, us, rfl, hls, hts⟩ := spells_append.mp hts
  obtain ⟨t, rs, rfl, ht, hrs⟩ := spells_cons.mp hts
  obtain ⟨l', hl', hleq⟩ := hl.unary (Nat.le_succ_of_le hk) hls
  obtain ⟨r', hr', hreq⟩ := hr.unary (Nat.le_succ_of_le hk) hrs
  obtain ⟨hkind, rfl⟩ := Token.isA_iff.mp ht
  have hbinary := derives_binary hkind ho hor hl' hr'
  exact ⟨_, _, Phrase.Expression.level hbinary, by simp [hleq, hreq]⟩

theorem readsAs_unary (pos : Pos) {o : String} {e : Node} (ho : o = "-" ∨ o = "-.")
    (he : ReadsAs n e) : ReadsAs (n + 12) (.unary pos o e) := by
  intro m hm ts hts
  obtain ⟨k, hk, rfl⟩ := exists_steps hm
  obtain ⟨t, es, rfl, ht, hes⟩ := spells_cons.mp hts
  obtain ⟨e', he', heq⟩ := he.unary hk hes
  obtain ⟨-, hlex⟩ := Token.isA_iff.mp ht
  have hsign : t.isA .operator "-" = true ∨ t.isA .operator "-." = true := by
    rcases ho with rfl | rfl
    · exact .inl ht
    · exact .inr ht
  have hunary : Derives (k + 4) .unary false (t :: es) (.unary t.pos t.lexeme e') :=
    Phrase.Unary.sign hsign he'
  exact ⟨_, _, derives_expression hunary, by simp [heq, hlex, Word.operator]⟩

theorem pattern_word {p : Node} (hp : PrintablePattern p) {t : Token}
    (ht : t.isA p.patternWord.kind p.patternWord.lexeme = true) :
    ∃ p', Phrase.Pattern t p' ∧ p'.unplaced = p.unplaced := by
  obtain ⟨hkind, hlex⟩ := Token.isA_iff.mp ht
  cases hp with
  | wildcard => exact ⟨_, .wildcard hkind hlex, rfl⟩
  | bind _ _ hne => exact ⟨_, .bind hkind (hlex ▸ hne), by simp [hlex, Node.patternWord, Word.name]⟩

/-- Cases are read one after the other: none of their bodies is loose. -/
theorem cases_words {k : Nat} (hk : n ≤ k) {cs : List (Node × Node)} (hne : cs ≠ [])
    (hp : ∀ c ∈ cs, PrintablePattern c.1) (he : ∀ c ∈ cs, ReadsAs n c.2) {ts : List Token}
    (hts : Spells ts (Node.casesWords cs)) :
    ∃ cs', Phrase.Cases (Derives (k + 11)) ts cs' ∧
      Node.unplacedCases cs' = Node.unplacedCases cs := by
  induction cs generalizing ts with
  | nil => exact absurd rfl hne
  | cons c cs ih =>
    obtain ⟨p, e⟩ := c
    simp only [Node.casesWords, List.cons_append] at hts
    obtain ⟨bar, us, rfl, hbar, hts⟩ := spells_cons.mp hts
    obtain ⟨t, us, rfl, ht, hts⟩ := spells_cons.mp hts
    obtain ⟨arrow, us, rfl, harrow, hts⟩ := spells_cons.mp hts
    obtain ⟨es, rest, rfl, hes, hrest⟩ := spells_append.mp hts
    obtain ⟨p', hp', hpeq⟩ := pattern_word (hp _ (List.mem_cons_self ..)) ht
    obtain ⟨e', he', heeq⟩ := (he _ (List.mem_cons_self ..)).expression hk hes
    have hcase := Phrase.Case.mk hbar hp' harrow he'
    by_cases hcs : cs = []
    · subst hcs
      obtain rfl := spells_nil.mp hrest
      rw [List.append_nil]
      exact ⟨_, .last hcase, by simp [Node.unplacedCases, hpeq, heeq]⟩
    · obtain ⟨cs', hcs', hcseq⟩ := ih hcs (fun c hc => hp c (List.mem_cons_of_mem _ hc))
        (fun c hc => he c (List.mem_cons_of_mem _ hc)) hrest
      exact ⟨_, .more hcase hcs', by simp [Node.unplacedCases, hpeq, heeq, hcseq]⟩

theorem readsAs_matching (pos : Pos) {s : Node} {cs : List (Node × Node)} (hs : ReadsAs n s)
    (hne : cs ≠ []) (hp : ∀ c ∈ cs, PrintablePattern c.1) (he : ∀ c ∈ cs, ReadsAs n c.2) :
    ReadsAs (n + 12) (.matching pos s cs) := by
  intro m hm ts hts
  obtain ⟨k, hk, rfl⟩ := exists_steps hm
  simp only [Node.words, List.cons_append] at hts
  obtain ⟨t, us, rfl, ht, hts⟩ := spells_cons.mp hts
  obtain ⟨ss, us, rfl, hss, hts⟩ := spells_append.mp hts
  obtain ⟨w, us, rfl, hw, hts⟩ := spells_cons.mp hts
  obtain ⟨s', hs', hseq⟩ := hs.expression hk hss
  obtain ⟨cs', hcs', hcseq⟩ := cases_words hk hne hp he hts
  exact ⟨_, _, .matching ht (.mk hs' hw hcs'), by simp [hseq, hcseq]⟩

/-- A word that is a phrase of its own is an expression. -/
theorem readsAs_word {e : Node} {w : Word} (hw : e.words = [w])
    (h : ∀ t : Token, t.isA w.kind w.lexeme = true →
      ∃ e', e'.unplaced = e.unplaced ∧ ∀ L, Phrase.Primary L false [t] e') : ReadsAs (n + 12) e := by
  intro m hm ts hts
  obtain ⟨k, hk, rfl⟩ := exists_steps hm
  rw [hw] at hts
  obtain ⟨t, us, rfl, ht, hus⟩ := spells_cons.mp hts
  obtain rfl := spells_nil.mp hus
  obtain ⟨e', heq, he'⟩ := h t ht
  exact ⟨_, e', derives_expression (n := k + 4) (derives_unary (n := k + 2) (he' _)), heq⟩

/-- A number is read back from its digits. -/
theorem readInt?_writeNat {n : Nat} (hn : (Number.digits n).length ≤ Number.maxDigits) :
    Number.readInt? (Number.writeNat n) = some (n : Int) := by
  have hds : ∀ d ∈ Nat.toDigits 10 n, Text.isDigit d = true := fun d hd => toDigits_isDigit hd
  rw [Number.writeNat, Number.digits, readInt?_digits Nat.toDigits_ne_nil hds, if_pos (by exact hn),
    Nat.ofDigitChars_ten_toDigits]

end

theorem casesHeight_le {cs : List (Node × Node)} {c : Node × Node} (h : c ∈ cs) :
    c.2.height ≤ Node.casesHeight cs := Node.casesHeight_le_iff.mp (Nat.le_refl _) c h

theorem ReadsAs.mono {a b : Nat} {e : Node} (h : ReadsAs (13 * a) e) (hb : a ≤ b) :
    ReadsAs (13 * b) e :=
  fun k hk => h k (Nat.le_trans (Nat.mul_le_mul_left 13 hb) hk)

theorem ReadsAs.left {a b : Nat} {e : Node} (h : ReadsAs (13 * a) e) : ReadsAs (13 * max a b) e :=
  h.mono (Nat.le_max_left a b)

theorem ReadsAs.right {a b : Nat} {e : Node} (h : ReadsAs (13 * b) e) : ReadsAs (13 * max a b) e :=
  h.mono (Nat.le_max_right a b)

/-- Of the thirteen rules of a step, a form that binds nothing leaves one. -/
theorem ReadsAs.step {a : Nat} {e : Node} (h : ReadsAs (13 * a + 12) e) : ReadsAs (13 * (a + 1)) e :=
  fun k hk => h k (Nat.le_of_succ_le hk)

/-- The words of a printed expression derive it, within thirteen rules for each step down. -/
theorem Printable.readsAs {e : Node} (h : Printable e) : ReadsAs (13 * e.height) e := by
  induction h with
  | letIn pos _ _ hlam _ hv hb => exact readsAs_letIn pos hv.left hlam hb.right
  | cond pos _ _ _ hc ht he => exact (readsAs_cond pos hc.left ht.left.right he.right.right).step
  | @matching pos s cs _ hne hp _ hs he =>
    have hbodies (c : Node × Node) (hc : c ∈ cs) : ReadsAs (13 * max s.height (Node.casesHeight cs)) c.2 :=
      ((he c hc).mono (casesHeight_le hc)).right
    exact (readsAs_matching pos hs.left hne hp hbodies).step
  | lambda pos _ _ hb => exact (readsAs_lambda pos hb).step
  | apply pos _ _ hf ha => exact (readsAs_apply pos hf.left ha.right).step
  | binary pos ho hor _ _ hl hr => exact (readsAs_binary pos ho hor hl.left hr.right).step
  | unary pos ho _ he => exact (readsAs_unary pos ho he).step
  | @intLit pos n hn hlen =>
    refine .step (a := 0) <| readsAs_word rfl fun t ht => ⟨.intLit t.pos n, rfl, fun L => ?_⟩
    obtain ⟨hkind, hlex⟩ := Token.isA_iff.mp ht
    refine .int hkind ?_
    rw [hlex, readInt?_writeNat hlen, Int.toNat_of_nonneg hn]
  | stringLit pos s =>
    refine .step (a := 0) <| readsAs_word rfl fun t ht => ?_
    obtain ⟨hkind, rfl⟩ := Token.isA_iff.mp ht
    exact ⟨.stringLit t.pos t.lexeme, rfl, fun L => .string hkind⟩
  | charLit pos c =>
    refine .step (a := 0) <| readsAs_word rfl fun t ht => ?_
    obtain ⟨hkind, hlex⟩ := Token.isA_iff.mp ht
    exact ⟨.charLit t.pos t.lexeme, by simp [Node.unplaced, hlex], fun L => .char hkind⟩
  | @ident pos x hx =>
    refine .step (a := 0) <| readsAs_word rfl fun t ht => ?_
    obtain ⟨hkind, rfl⟩ := Token.isA_iff.mp ht
    refine ⟨.ident t.pos t.lexeme, rfl, fun L => ?_⟩
    dsimp only at hkind
    split at hkind
    · exact .ident hkind
    · exact .backtick hkind

/-! ## Printed declarations -/

/-- The words of a printed declaration are those of a declaration and a separator. -/
theorem declaration_words {n : Nat} {d : Node} (h : PrintableDeclaration d)
    (hn : 13 * d.height + 12 ≤ n) {ts : List Token} (hts : Spells ts d.declarationWords) :
    ∃ us sep d', ts = us ++ [sep] ∧ isSeparator sep = true ∧ Phrase.Declaration (Derives n) us d' ∧
      d'.unplaced = d.unplaced := by
  obtain ⟨m, rfl⟩ := Nat.exists_eq_add_of_le' (Nat.le_trans (Nat.le_add_left 12 _) hn)
  have hm : 13 * d.height ≤ m := Nat.le_of_add_le_add_right hn
  cases h with
  | letDecl pos hx hv =>
    simp only [Node.declarationWords, List.cons_append] at hts
    obtain ⟨l, us, rfl, hl, hts⟩ := spells_cons.mp hts
    obtain ⟨name, us, rfl, hname, hts⟩ := spells_cons.mp hts
    obtain ⟨eq, us, rfl, heq, hts⟩ := spells_cons.mp hts
    obtain ⟨vs, us, rfl, hvs, hts⟩ := spells_append.mp hts
    obtain ⟨sep, us, rfl, hsep, hus⟩ := spells_cons.mp hts
    obtain rfl := spells_nil.mp hus
    have hplain : Spells [] (Word.recursive false) := spells_nil.mpr rfl
    have hnone : Spells [] (([] : List String).map Word.name) := spells_nil.mpr rfl
    obtain ⟨v', hbind, hveq⟩ := binding_words hm [] hv.readsAs .nil
      (fun hr _ => absurd hr Bool.false_ne_true) hplain hname hnone heq hvs
    exact ⟨_, sep, _, by simp, hsep, .binding hl hbind .value, by simp [Node.unplaced, hveq]⟩
  | @funDecl pos f ps b r hf hne _ hnames hb =>
    simp only [Node.declarationWords, List.cons_append, List.append_assoc] at hts
    obtain ⟨l, us, rfl, hl, hts⟩ := spells_cons.mp hts
    obtain ⟨rs, us, rfl, hrs, hts⟩ := spells_append.mp hts
    obtain ⟨name, us, rfl, hname, hts⟩ := spells_cons.mp hts
    obtain ⟨qs, us, rfl, hqs, hts⟩ := spells_append.mp hts
    obtain ⟨eq, us, rfl, heq, hts⟩ := spells_cons.mp hts
    obtain ⟨vs, us, rfl, hvs, hts⟩ := spells_append.mp hts
    obtain ⟨sep, us, rfl, hsep, hus⟩ := spells_cons.mp hts
    obtain rfl := spells_nil.mp hus
    obtain ⟨b', hbind, hbeq⟩ :=
      binding_words hm ps hb.readsAs hnames (fun _ h => absurd h hne) hrs hname hqs heq hvs
    obtain ⟨p, ps, rfl⟩ := List.exists_cons_of_ne_nil hne
    exact ⟨_, sep, _, by simp, hsep, .binding hl hbind .function, by simp [Node.unplaced, hbeq]⟩
  | exprStmt pos he =>
    simp only [Node.declarationWords] at hts
    obtain ⟨es, us, rfl, hes, hts⟩ := spells_append.mp hts
    obtain ⟨sep, us, rfl, hsep, hus⟩ := spells_cons.mp hts
    obtain rfl := spells_nil.mp hus
    obtain ⟨e', he', heq⟩ := he.readsAs.expression (Nat.le_succ_of_le hm) hes
    obtain ⟨t, vs, rfl, -⟩ := derives_opening _ _ _ _ _ he'
    exact ⟨_, sep, _, rfl, hsep, .expression he', by simp [Node.unplaced, heq]⟩

/-- The words of printed declarations derive them, but for their places. -/
theorem declarations_words {n : Nat} {ds : List Node} (h : ∀ d ∈ ds, PrintableDeclaration d)
    (hn : ∀ d ∈ ds, 13 * d.height + 12 ≤ n) {ts : List Token}
    (hts : Spells ts (ds.flatMap Node.declarationWords)) :
    ∃ ds', Phrase.Declarations (Derives n) ts ds' ∧ ds'.map Node.unplaced = ds.map Node.unplaced := by
  induction ds generalizing ts with
  | nil =>
    obtain rfl := spells_nil.mp hts
    exact ⟨[], .nil, rfl⟩
  | cons d ds ih =>
    rw [List.flatMap_cons] at hts
    obtain ⟨us, rest, rfl, hus, hrest⟩ := spells_append.mp hts
    obtain ⟨vs, sep, d', rfl, hsep, hd', hdeq⟩ :=
      declaration_words (h d (List.mem_cons_self ..)) (hn d (List.mem_cons_self ..)) hus
    obtain ⟨ds', hds', hdseq⟩ := ih (fun d hd => h d (List.mem_cons_of_mem _ hd))
      (fun d hd => hn d (List.mem_cons_of_mem _ hd)) hrest
    have hseps : Phrase.Separators [sep] := separators_cons.mpr ⟨hsep, separators_nil⟩
    exact ⟨d' :: ds', .cons hd' hseps (.inl nofun) hds', by simp [hdeq, hdseq]⟩

/-! ## Printed programs -/

section

variable {ds : List Node}

/-- The tokens of printed declarations, all of which count. -/
theorem tokens_printed (h : ∀ d ∈ ds, PrintableDeclaration d) :
    ∃ ts last, tokenize (printed ds) = ts ++ [last] ∧ Spells ts (ds.flatMap Node.declarationWords) ∧
      last.kind = .endOfInput ∧ (∀ t ∈ ts, t.kind ≠ .endOfInput) ∧ significant ts = ts := by
  obtain ⟨ts, last, htok, hwords, hlast⟩ := tokenize_printed h
  have hcut : ∀ t ∈ ts, t.word.IsCut := by
    intro t ht
    have hmem : t.word ∈ ds.flatMap Node.declarationWords := hwords ▸ List.mem_map_of_mem ht
    obtain ⟨d, hd, hw⟩ := List.mem_flatMap.mp hmem
    exact (h d hd).allCut _ hw
  refine ⟨ts, last, htok, hwords, hlast, fun t ht => (hcut t ht).kind_ne_endOfInput, ?_⟩
  exact List.filter_eq_self.mpr fun t ht => by simpa [Token.word] using (hcut t ht).significant

theorem exists_nesting (ds : List Node) : ∃ n, ∀ d ∈ ds, 13 * d.height + 12 ≤ n := by
  induction ds with
  | nil => exact ⟨0, by simp⟩
  | cons d ds ih =>
    obtain ⟨n, hn⟩ := ih
    refine ⟨max (13 * d.height + 12) n, fun c hc => ?_⟩
    rcases List.mem_cons.mp hc with rfl | hc
    · exact Nat.le_max_left ..
    · exact Nat.le_trans (hn c hc) (Nat.le_max_right ..)

/-- What is printed is read back as it was, unless its nesting is beyond the budget; and that it is not
if the height of each declaration is within a thirteenth of the budget. -/
theorem parse_printed (hne : ds ≠ []) (h : ∀ d ∈ ds, PrintableDeclaration d) :
    ((∃ f ∈ (parse (printed ds)).errors, f.val = .tooDeep) ∨
      (parse (printed ds)).errors = [] ∧
        ∃ p, (parse (printed ds)).program = some p ∧ p.body.map Node.unplaced = ds.map Node.unplaced) ∧
    ((∀ d ∈ ds, 13 * d.height + 12 ≤ nestingBudget) → (parse (printed ds)).errors = []) := by
  obtain ⟨ts, last, htok, hwords, hlast, hend, hsig⟩ := tokens_printed h
  rw [parse, parseTokens, htok]
  constructor
  · by_cases hdeep : ∃ f ∈ (parseWithin nestingBudget (ts ++ [last])).errors, f.val = .tooDeep
    · exact .inl hdeep
    · right
      have hdeep' : ∀ f ∈ (parseWithin nestingBudget (ts ++ [last])).errors, f.val ≠ .tooDeep :=
        fun f hf heq => hdeep ⟨f, hf, heq⟩
      obtain ⟨n, hn⟩ := exists_nesting ds
      obtain ⟨ds', hds', heq⟩ := declarations_words h hn hwords
      have hprogram : Phrase.Program (Derives n) ts ds' := .mk separators_nil hds'
      rw [parseWithin_append hend hlast, hsig] at hdeep' ⊢
      rw [collect_of_derives hdeep' hprogram]
      cases ds' with
      | nil => exact absurd (List.map_eq_nil_iff.mp heq.symm) hne
      | cons d ds' => exact ⟨rfl, _, rfl, heq⟩
  · intro hn
    obtain ⟨ds', hds', -⟩ := declarations_words h hn hwords
    rw [parseWithin_errors_eq_nil hend hlast, hsig]
    exact ⟨ds', .mk separators_nil hds'⟩

end

/-- The general statement at `let x = - 1;;`. -/
theorem parse_printed_negative :
    PrintableDeclaration (.letDecl {} "x" (.unary {} "-" (.intLit {} 1))) ∧
    (parse "let x = ( - ( 1 ) ) ;;").errors = [] := by
  have hx : PrintableDeclaration (.letDecl {} "x" (.unary {} "-" (.intLit {} 1))) :=
    .letDecl {} (by decide) (.unary {} (.inl rfl) (.intLit {} (by decide) (by decide)))
  have h : ∀ d ∈ [Node.letDecl {} "x" (.unary {} "-" (.intLit {} 1))], PrintableDeclaration d := by
    intro d hd
    rwa [List.mem_singleton.mp hd]
  have htext : printed [Node.letDecl {} "x" (.unary {} "-" (.intLit {} 1))] = "let x = ( - ( 1 ) ) ;;" := by
    decide
  refine ⟨hx, ?_⟩
  rw [← htext]
  exact (parse_printed (List.cons_ne_nil _ _) h).2 (by decide)

/-! ## Trees beyond the budget -/

namespace Node

/-- The signs in front of an expression or a declaration. -/
def signs : Node → Nat
  | exprStmt _ e => e.signs
  | unary _ _ e => e.signs + 1
  | _ => 0

/-- A number behind so many signs. -/
def negated : Nat → Node
  | 0 => intLit {} 1
  | n + 1 => unary {} "-" (negated n)

theorem signs_unplaced : ∀ e : Node, e.unplaced.signs = e.signs
  | unary _ _ e => congrArg (· + 1) (signs_unplaced e)
  | exprStmt _ e => signs_unplaced e
  | wildcard .. | bind .. | program .. | letDecl .. | funDecl .. | letIn .. | cond ..
  | matching .. | lambda .. | apply .. | binary .. | intLit .. | floatLit .. | stringLit .. | charLit ..
  | ident .. => rfl

theorem signs_negated (n : Nat) : (negated n).signs = n := by
  induction n with
  | zero => rfl
  | succ n ih => exact congrArg (· + 1) ih

theorem printable_negated (n : Nat) : Printable (negated n) := by
  induction n with
  | zero => exact .intLit {} (by decide) (by decide)
  | succ n ih => exact .unary {} (.inl rfl) ih

end Node

/-- Each sign takes a rule. -/
theorem signs_le {n : Nat} {nt : Nonterminal} {loose : Bool} {ts : List Token} {e : Node}
    (h : Derives n nt loose ts e) : e.signs ≤ n := by
  induction n generalizing nt loose ts e with
  | zero => exact h.elim
  | succ n ih =>
    match nt with
    | .expression =>
      cases h with
      | letIn _ h => cases h; exact Nat.zero_le _
      | cond _ h => cases h; exact Nat.zero_le _
      | matching _ h => cases h; exact Nat.zero_le _
      | lambda _ h =>
        cases h with
        | @mk _ _ ps _ _ _ hne _ _ _ hcurried =>
          cases ps with
          | nil => exact absurd rfl hne
          | cons p ps =>
            cases hcurried
            exact Nat.zero_le _
      | level h => exact Nat.le_succ_of_le (ih h)
    | .bound =>
      have hexpression : Derives n .expression loose ts e := h
      exact Nat.le_succ_of_le (ih hexpression)
    | .level [] => exact Nat.le_succ_of_le (ih h)
    | .level (_ :: _) =>
      cases h with
      | operand h => exact Nat.le_succ_of_le (ih h)
      | binary => exact Nat.zero_le _
    | .unary =>
      cases h with
      | sign _ h => exact Nat.succ_le_succ (ih h)
      | application h => exact Nat.le_succ_of_le (ih h)
    | .application =>
      cases h with
      | callee h => exact Nat.le_succ_of_le (ih h)
      | argument => exact Nat.zero_le _
    | .primary =>
      cases h with
      | bracketed _ h => exact Nat.le_succ_of_le (ih h)
      | int | float | string | char | ident | backtick => exact Nat.zero_le _

theorem signs_declaration_le {n : Nat} {ts : List Token} {d : Node}
    (h : Phrase.Declaration (Derives n) ts d) : d.signs ≤ n := by
  cases h with
  | binding _ _ hd => cases hd <;> exact Nat.zero_le n
  | letIn _ h => cases h; exact Nat.zero_le n
  | @expression _ _ _ e h =>
    have hle : e.signs ≤ n := signs_le h
    exact hle

theorem signs_program_le {n : Nat} {ts : List Token} {d : Node}
    (h : Phrase.Program (Derives n) ts [d]) : d.signs ≤ n := by
  cases h with
  | mk _ h =>
    cases h with
    | cons hd => exact signs_declaration_le hd

/-- Not everything that is printed is read back: two thousand signs are nested beyond the budget. -/
theorem not_parse_printed_unlimited :
    ¬ ∀ ds : List Node, ds ≠ [] → (∀ d ∈ ds, PrintableDeclaration d) →
      (parse (printed ds)).errors = [] ∧
        ∃ p, (parse (printed ds)).program = some p ∧ p.body.map Node.unplaced = ds.map Node.unplaced := by
  intro h
  have hd : ∀ d ∈ [Node.exprStmt {} (.negated 2000)], PrintableDeclaration d := by
    intro d hd
    rw [List.mem_singleton.mp hd]
    exact .exprStmt {} (Node.printable_negated 2000)
  obtain ⟨herrors, p, hp, hbody⟩ := h _ (List.cons_ne_nil _ _) hd
  obtain ⟨ts, last, htok, -, hlast, hend, hsig⟩ := tokens_printed hd
  rw [parse, parseTokens, htok] at herrors hp
  obtain ⟨d, hd⟩ : ∃ d, p.body = [d] := by
    have := congrArg List.length hbody
    exact List.length_eq_one_iff.mp (by simpa using this)
  rw [hd] at hbody
  have hd' : d.unplaced = (Node.exprStmt {} (.negated 2000)).unplaced := (List.cons.inj hbody).1
  have hprogram := parseWithin_phrase hend hlast herrors hp
  rw [hd] at hprogram
  have hle : d.signs ≤ nestingBudget := signs_program_le hprogram
  have hsigns : d.signs = 2000 := by
    rw [← Node.signs_unplaced, hd', Node.signs_unplaced]
    exact Node.signs_negated 2000
  rw [hsigns] at hle
  exact absurd hle (by decide)

end Camlet
