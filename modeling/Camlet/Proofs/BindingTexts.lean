import Camlet.Proofs.BindingForms
import Camlet.Proofs.Pieces
import Camlet.Proofs.Vocabulary

/-
  The two forms of a binding, as texts. Both texts start with the same tokens, those of the expression that is
  bound included, at the same places; the tokens of the expression behind are the same but for their places,
  and are moved from one text to the other and back. So both texts are read, to trees that are the same but
  for that, or neither is; only the local form may be nested too deeply where the other is not.
-/

namespace Camlet

/-! ## Texts of expressions -/

/-- A text that is read without a fault, as one expression and nothing else. -/
structure ExpressionText (source : String) : Prop where
  errors : (parse source).errors = []
  single : ∃ pos e, (parse source).declarations = [.exprStmt pos e]
  unseparated : ∀ t ∈ tokenize source, ¬ isSeparator t

/-- The expression that a declaration without a name consists of. -/
def Node.statement? : Node → Option Node
  | .exprStmt _ e => some e
  | _ => none

/-- Whether a text is an expression on its own, found out by reading it. -/
def isExpressionText (source : String) : Bool :=
  (parse source).errors.isEmpty && (parse source).declarations.length == 1 &&
    (parse source).declarations.all (·.statement?.isSome) && (tokenize source).all (!isSeparator ·)

theorem statement?_eq_some {d e : Node} : d.statement? = some e ↔ ∃ pos, d = .exprStmt pos e := by
  cases d <;> simp [Node.statement?]

theorem expressionText_iff {source : String} : ExpressionText source ↔ isExpressionText source = true := by
  simp only [isExpressionText, Bool.and_eq_true, List.isEmpty_iff, List.all_eq_true, Bool.not_eq_true',
    beq_iff_eq]
  constructor
  · rintro ⟨herrors, ⟨pos, e, hsingle⟩, hunseparated⟩
    rw [hsingle]
    exact ⟨⟨⟨herrors, rfl⟩, List.forall_mem_singleton.mpr rfl⟩, fun t ht => Bool.eq_false_iff.mpr (hunseparated t ht)⟩
  · rintro ⟨⟨⟨herrors, hlength⟩, hstatements⟩, hunseparated⟩
    obtain ⟨d, hd⟩ := List.length_eq_one_iff.mp hlength
    rw [hd] at hstatements
    obtain ⟨e, he⟩ := Option.isSome_iff_exists.mp (hstatements d (List.mem_singleton.mpr rfl))
    obtain ⟨pos, rfl⟩ := statement?_eq_some.mp he
    exact ⟨herrors, ⟨pos, e, hd⟩, fun t ht => Bool.eq_false_iff.mp (hunseparated t ht)⟩

instance (source : String) : Decidable (ExpressionText source) := decidable_of_iff' _ expressionText_iff

theorem significant_shift (p q : Pos) (cs : List Char) :
    significant (Lexer.body q cs) = (significant (Lexer.body p cs)).map (Token.moved (p.shift q)) := by
  rw [body_shift p q, significant_moved]

/-- A declaration without a name is a local binding or another expression. -/
theorem Phrase.Declaration.expression_cases {n : Nat} {ts : List Token} {pos : Pos} {e : Node}
    (h : Phrase.Declaration (Derives n) ts (.exprStmt pos e)) :
    (∃ loose, Derives n .expression loose ts e) ∨
      ∃ loose t us, ts = t :: us ∧ t.isA .keyword "let" = true ∧ Phrase.LetIn (Derives n) t.pos loose us e := by
  generalize hd : Node.exprStmt pos e = d at h
  cases h with
  | binding _ _ hdeclares =>
    subst hd
    cases hdeclares
  | @letIn loose t us e' ht he =>
    cases hd
    exact .inr ⟨loose, t, us, rfl, ht, he⟩
  | @expression loose t us e' he =>
    cases hd
    exact .inl ⟨loose, he⟩

theorem Phrase.Declaration.expression_derives {n : Nat} {ts : List Token} {pos : Pos} {e : Node}
    (h : Phrase.Declaration (Derives n) ts (.exprStmt pos e)) : ∃ m loose, Derives m .expression loose ts e := by
  rcases h.expression_cases with ⟨loose, he⟩ | ⟨loose, t, us, rfl, ht, he⟩
  · exact ⟨n, loose, he⟩
  · have hexpression : Derives (n + 1) .expression loose (t :: us) e := .letIn ht he
    exact ⟨n + 1, loose, hexpression⟩

namespace ExpressionText

variable {source : String} (h : ExpressionText source)

include h

/-- The tokens of the text are an expression, which is a declaration of its own. -/
theorem phrase {pos : Pos} {e : Node} (hsingle : (parse source).declarations = [.exprStmt pos e]) :
    Phrase.Declaration (Derives nestingBudget) (significant (Lexer.body .first source.toList))
      (.exprStmt pos e) := by
  have hparse := parse_eq_read source
  rw [h.errors, hsingle] at hparse
  have hprogram := (collect_eq_nil (Nat.le_refl _)).mp hparse.symm
  have hnone : ∀ t ∈ significant (Lexer.body .first source.toList), ¬ isSeparator t :=
    fun t ht => h.unseparated t (mem_tokenize_of_significant ht)
  have hnil : ∀ seps : List Token, Phrase.Separators seps →
      (∀ t ∈ seps, t ∈ significant (Lexer.body .first source.toList)) → seps = [] := by
    intro seps hseps hmem
    cases seps with
    | nil => rfl
    | cons t seps =>
      exact absurd (hseps t (List.mem_cons_self ..)) (hnone t (hmem t (List.mem_cons_self ..)))
  generalize significant (Lexer.body .first source.toList) = ts at hprogram hnil ⊢
  cases hprogram with
  | @mk seps us _ hseps hds =>
    obtain rfl := hnil seps hseps fun t ht => List.mem_append_left _ ht
    cases hds with
    | @cons us seps' rest _ _ hd hseps' _ hrest =>
      cases hrest
      obtain rfl := hnil seps' hseps' fun t ht => by simp [ht]
      simpa using hd

/-- At any place its tokens are that expression, moved there. -/
theorem derives {pos : Pos} {e : Node} (hsingle : (parse source).declarations = [.exprStmt pos e]) (p : Pos) :
    ∃ q n loose,
      Phrase.Declaration (Derives nestingBudget) (significant (Lexer.body p source.toList))
        (.exprStmt q (e.moved (Pos.first.shift p))) ∧
      Derives n .expression loose (significant (Lexer.body p source.toList))
        (e.moved (Pos.first.shift p)) := by
  have hmoved := (h.phrase hsingle).moved (f := Pos.first.shift p)
  rw [← significant_shift] at hmoved
  obtain ⟨n, loose, he⟩ := hmoved.expression_derives
  exact ⟨_, n, loose, hmoved, he⟩

/-- Its tokens can be cut off at a blank and at a separator. -/
theorem cut (p : Pos) : ∀ t ∈ Lexer.body p source.toList,
    t.kind ≠ .error ∧ ¬ (t.kind = .delimiter ∧ t.lexeme = ";") := by
  obtain ⟨pos, e, hsingle⟩ := h.single
  obtain ⟨q, n, loose, -, he⟩ := h.derives hsingle p
  intro t ht
  by_cases hcomment : t.kind = .comment
  · simp [hcomment]
  · have hspeakable := spoken_derives n _ _ _ _ he t (List.mem_filter.mpr ⟨ht, by simpa using hcomment⟩)
    refine ⟨hspeakable.sound, fun ⟨hkind, hlex⟩ => ?_⟩
    have hmem := hspeakable.delimiter hkind
    rw [hlex] at hmem
    revert hmem
    decide

end ExpressionText

/-- An expression has one tree. -/
theorem derives_unique {n m : Nat} {l l' : Bool} {ts : List Token} {x y : Node}
    (hx : Derives n .expression l ts x) (hy : Derives m .expression l' ts y) : x = y := by
  have hparse := (recognizes_parse m .expression trivial).reads hy (stops_nil _)
  exact ((parse_phrase_iff .expression trivial hx fun _ => stops_nil _).mp hparse).2.1.symm

/-! ## The texts of the two forms -/

/-- The text of a binding in front of its expression: `let`, perhaps `rec`, the names and `=`. -/
def bindingText (r : Bool) (f : String) (ps : List String) : String :=
  spell (Word.keyword "let" :: Word.header r f ps) ++ " "

/-- A local binding, as `let f x = e in b;;`. -/
def localText (r : Bool) (f : String) (ps : List String) (e b : String) : String :=
  bindingText r f ps ++ e ++ " in " ++ b ++ ";;"

/-- The binding at the top, with the expression behind it, as `let f x = e;; b;;`. -/
def topText (r : Bool) (f : String) (ps : List String) (e b : String) : String :=
  bindingText r f ps ++ e ++ ";; " ++ b ++ ";;"

example : localText true "f" ["x", "y"] "x + y" "f 1 2" = "let rec f x y = x + y in f 1 2;;" := by decide +kernel

example : topText false "x" [] "1" "x" = "let x = 1;; x;;" := by decide +kernel

/-- The names of a binding: none of them is `_`. -/
structure Nameable (f : String) (ps : List String) : Prop where
  name : isIdentifier f = true
  named : f ≠ "_"
  params : ∀ p ∈ ps, isIdentifier p = true ∧ p ≠ "_"

section

variable {r : Bool} {f : String} {ps : List String} {e b : String}

instance (f : String) (ps : List String) : Decidable (Nameable f ps) :=
  decidable_of_iff (isIdentifier f = true ∧ f ≠ "_" ∧ ∀ p ∈ ps, isIdentifier p = true ∧ p ≠ "_")
    ⟨fun ⟨hname, hnamed, hparams⟩ => ⟨hname, hnamed, hparams⟩, fun h => ⟨h.name, h.named, h.params⟩⟩

theorem Nameable.allCut (h : Nameable f ps) (r : Bool) :
    AllCut (Word.keyword "let" :: Word.header r f ps) := by
  simp only [Word.header, List.append_assoc, List.cons_append, allCut_cons, allCut_append]
  refine ⟨isCut_keyword (by decide), allCut_recursive r, isCut_name h.name, fun w hw => ?_,
    isCut_operator (by decide) (by decide), allCut_nil⟩
  obtain ⟨p, hp, rfl⟩ := List.mem_map.mp hw
  exact isCut_name (h.params p hp).1

theorem header_sound (r : Bool) (f : String) (ps : List String) :
    ∀ w ∈ Word.keyword "let" :: Word.header r f ps, w.kind ≠ .error := by
  have hrecursive : ∀ w ∈ Word.recursive r, w.kind ≠ .error := by
    cases r <;> simp [Word.recursive, Word.keyword]
  simp only [Word.header, List.append_assoc, List.cons_append, List.forall_mem_cons, List.forall_mem_append,
    List.forall_mem_map]
  exact ⟨nofun, hrecursive, nofun, fun _ _ => nofun, nofun, List.forall_mem_nil _⟩

/-- Words are the tokens of what they spell. -/
theorem body_spell {ws : List Word} (h : AllCut ws) (pos : Pos) :
    Spells (Lexer.body pos (spell ws).toList) ws := by
  obtain ⟨ts, last, hts, hwords, -⟩ := tokensFrom_spell h pos (Nat.le_refl _)
  rw [Lexer.tokensFrom_eq_tokens (Nat.le_refl _)] at hts
  rw [Spells, Lexer.body, hts, List.dropLast_concat, hwords]

theorem body_in (pos : Pos) (cs : List Char) :
    Lexer.body pos ('i' :: 'n' :: ' ' :: cs) =
      ⟨.keyword, "in", pos, none⟩ :: Lexer.body (pos.after ['i', 'n', ' ']) cs := by
  have hin : Lexer.body pos ['i', 'n'] = [⟨.keyword, "in", pos, none⟩] := by
    rw [Lexer.body_scan (by decide)]
    rfl
  have hsound : ∀ t ∈ Lexer.body pos ['i', 'n'], t.kind ≠ .error := by simp [hin]
  have happend := Lexer.body_append_blank hsound (d := ' ') (by decide) cs
  rw [hin] at happend
  exact happend

theorem body_separator (pos : Pos) (cs : List Char) :
    Lexer.body pos (';' :: ';' :: cs) =
      ⟨.delimiter, ";;", pos, none⟩ :: Lexer.body (pos.after [';', ';']) cs := by
  rw [Lexer.body_scan (by decide)]
  rfl

/-- Both texts start with the tokens of the binding, and go on at the same place. -/
theorem tokens_binding (h : Nameable f ps) (r : Bool) : ∃ l hs, l.isA .keyword "let" = true ∧
    Spells hs (Word.header r f ps) ∧
    ∀ cs, significant (Lexer.body .first ((bindingText r f ps).toList ++ cs)) =
      l :: (hs ++ significant (Lexer.body (Pos.first.after (bindingText r f ps).toList) cs)) := by
  have hspells := body_spell (h.allCut r) .first
  obtain ⟨l, hs, hts, hl, hhs⟩ := spells_cons.mp hspells
  have hword : ∀ t ∈ l :: hs, t.word ∈ Word.keyword "let" :: Word.header r f ps := by
    intro t ht
    rw [← hspells, hts]
    exact List.mem_map_of_mem ht
  have hsound : ∀ t ∈ Lexer.body .first (spell (Word.keyword "let" :: Word.header r f ps)).toList,
      t.kind ≠ .error := fun t ht => header_sound r f ps t.word (hword t (hts ▸ ht))
  have hsignificant : significant (l :: hs) = l :: hs :=
    List.filter_eq_self.mpr fun t ht => by
      have hcomment : t.kind ≠ .comment := (h.allCut r t.word (hword t ht)).significant
      simpa using hcomment
  refine ⟨l, hs, hl, hhs, fun cs => ?_⟩
  have htext : (bindingText r f ps).toList =
      (spell (Word.keyword "let" :: Word.header r f ps)).toList ++ [' '] := by
    rw [bindingText, String.toList_append]
    rfl
  rw [htext, List.append_assoc, List.singleton_append, Lexer.body_append_blank hsound (by decide), hts,
    significant, List.filter_append, ← significant, hsignificant]
  rfl

variable (he : ExpressionText e) (hb : ExpressionText b)

include hb in
/-- The second expression ends where the separator behind it starts. -/
theorem tokens_last (p : Pos) : ∃ t, isSeparator t = true ∧
    significant (Lexer.body p (b.toList ++ [';', ';'])) = significant (Lexer.body p b.toList) ++ [t] := by
  refine ⟨⟨.delimiter, ";;", p.after b.toList, none⟩, rfl, ?_⟩
  rw [Lexer.body_append boundary_semicolon (hb.cut p), body_separator, significant, List.filter_append]
  rfl

include he hb

theorem tokens_local (p : Pos) : ∃ i q t, i.isA .keyword "in" = true ∧ isSeparator t = true ∧
    significant (Lexer.body p (e.toList ++ ' ' :: 'i' :: 'n' :: ' ' :: (b.toList ++ [';', ';']))) =
      significant (Lexer.body p e.toList) ++ i :: (significant (Lexer.body q b.toList) ++ [t]) := by
  rw [Lexer.body_append_blank (fun t ht => (he.cut p t ht).1) (by decide), body_in]
  generalize (p.after (e.toList ++ [' '])) = p₁
  obtain ⟨t, ht, hlast⟩ := tokens_last hb (p₁.after ['i', 'n', ' '])
  refine ⟨⟨.keyword, "in", p₁, none⟩, p₁.after ['i', 'n', ' '], t, rfl, ht, ?_⟩
  rw [← hlast, significant, List.filter_append]
  rfl

theorem tokens_top (p : Pos) : ∃ t q t', isSeparator t = true ∧ isSeparator t' = true ∧
    significant (Lexer.body p (e.toList ++ ';' :: ';' :: ' ' :: (b.toList ++ [';', ';']))) =
      significant (Lexer.body p e.toList) ++ t :: (significant (Lexer.body q b.toList) ++ [t']) := by
  rw [Lexer.body_append boundary_semicolon (he.cut p), body_separator, Lexer.body_blank (by decide)]
  generalize (p.after e.toList) = p₁
  obtain ⟨t', ht', hlast⟩ := tokens_last hb ((p₁.after [';', ';']).step ' ')
  refine ⟨⟨.delimiter, ";;", p₁, none⟩, (p₁.after [';', ';']).step ' ', t', rfl, ht', ?_⟩
  rw [← hlast, significant, List.filter_append]
  rfl

end

/-- Where the expression starts that is bound. -/
def bindingEnd (r : Bool) (f : String) (ps : List String) : Pos := Pos.first.after (bindingText r f ps).toList

/-- The tokens of both texts. -/
theorem tokens_forms {f : String} {ps : List String} {e b : String} (h : Nameable f ps) (he : ExpressionText e)
    (hb : ExpressionText b) (r : Bool) :
    ∃ l hs i q t t' q' t'', l.isA .keyword "let" = true ∧ Spells hs (Word.header r f ps) ∧
      i.isA .keyword "in" = true ∧ isSeparator t = true ∧ isSeparator t' = true ∧ isSeparator t'' = true ∧
      significant (Lexer.body .first (localText r f ps e b).toList) =
        l :: (hs ++ (significant (Lexer.body (bindingEnd r f ps) e.toList) ++
          i :: (significant (Lexer.body q b.toList) ++ [t]))) ∧
      significant (Lexer.body .first (topText r f ps e b).toList) =
        l :: (hs ++ (significant (Lexer.body (bindingEnd r f ps) e.toList) ++
          t' :: (significant (Lexer.body q' b.toList) ++ [t'']))) := by
  obtain ⟨l, hs, hl, hhs, hbinding⟩ := tokens_binding h r
  obtain ⟨i, q, t, hi, ht, hlocal⟩ := tokens_local he hb (bindingEnd r f ps)
  obtain ⟨t', q', t'', ht', ht'', htop⟩ := tokens_top he hb (bindingEnd r f ps)
  have htext : (localText r f ps e b).toList =
      (bindingText r f ps).toList ++ (e.toList ++ ' ' :: 'i' :: 'n' :: ' ' :: (b.toList ++ [';', ';'])) := by
    simp [localText]
  have htext' : (topText r f ps e b).toList =
      (bindingText r f ps).toList ++ (e.toList ++ ';' :: ';' :: ' ' :: (b.toList ++ [';', ';'])) := by
    simp [topText]
  refine ⟨l, hs, i, q, t, t', q', t'', hl, hhs, hi, ht, ht', ht'', ?_, ?_⟩
  · rw [htext, hbinding, ← bindingEnd, hlocal]
  · rw [htext', hbinding, ← bindingEnd, htop]

/-! ## Reading both texts -/

/-- The trees of the two forms of a binding: what is bound, which is `x₀` elsewhere, and the expression behind
it at its two places, which is `b₀` elsewhere. -/
structure BothForms (r : Bool) (ps : List String) (x₀ b₀ x b b' : Node) : Prop where
  bound : ∃ g, x = x₀.moved g
  behind : ∃ g, b' = b₀.moved g
  distinct : (ps.filter (· ≠ "_")).Nodup
  isLambda : r = true → ps = [] → x.isLambda = true
  value : IsExpression x
  body : IsExpression b
  body' : IsExpression b'
  there : ∃ g, b' = b.moved g
  back : ∃ g, b = b'.moved g

/-- A binding that can be read, where its expression is `x₀` on its own. -/
abbrev Readable (r : Bool) (f : String) (ps : List String) (e : String) (x₀ : Node) : Prop :=
  Bindable nestingBudget r ps (significant (Lexer.body (bindingEnd r f ps) e.toList))
    (x₀.moved (Pos.first.shift (bindingEnd r f ps)))

section

variable {f : String} {ps : List String} {e b : String} (hnames : Nameable f ps) (he : ExpressionText e)
  (hb : ExpressionText b) {pos : Pos} {x₀ : Node} (hx₀ : (parse e).declarations = [.exprStmt pos x₀]) (r : Bool)

include hnames he hb hx₀

/-- If the binding cannot be read, neither text is. -/
theorem parse_unreadable (hnot : ¬ Readable r f ps e x₀) :
    (parse (localText r f ps e b)).errors ≠ [] ∧ (parse (topText r f ps e b)).errors ≠ [] := by
  obtain ⟨l, hs, i, q, t, t', q', t'', hl, hhs, hi, ht, ht', ht'', hlocal, htop⟩ := tokens_forms hnames he hb r
  obtain ⟨-, n, _, -, hx⟩ := he.derives hx₀ (bindingEnd r f ps)
  have hread := parse_eq_read (localText r f ps e b)
  have hread' := parse_eq_read (topText r f ps e b)
  rw [hlocal] at hread
  rw [htop] at hread'
  constructor
  · intro herrors
    rw [(Prod.mk.inj hread).2] at herrors
    exact hnot (bindable_of_read hhs (derives_bound hx) hl (closes_in hi _) herrors)
  · intro herrors
    rw [(Prod.mk.inj hread').2] at herrors
    exact hnot (bindable_of_read hhs (derives_bound hx) hl (closes_separator ht' _) herrors)

/-- If it can be read, so are both texts, except that the local one may be nested too deeply. -/
theorem parse_readable (hreadable : Readable r f ps e x₀) {pos' : Pos} {b₀ : Node}
    (hb₀ : (parse b).declarations = [.exprStmt pos' b₀]) :
    ∃ p q x c c', BothForms r ps x₀ b₀ x c c' ∧
      (parse (topText r f ps e b)).errors = [] ∧
      (parse (topText r f ps e b)).declarations =
        [Grammar.declarationOf p ⟨r, f, ps, x⟩, .exprStmt q c'] ∧
      ((parse (localText r f ps e b)).errors = [] ∧
        (parse (localText r f ps e b)).declarations =
          [.exprStmt p (.letIn p f (.curry p ps x) c r)] ∨
      ∃ fault ∈ (parse (localText r f ps e b)).errors, fault.val = .tooDeep) := by
  obtain ⟨l, hs, i, q₁, t, t', q₂, t'', hl, hhs, hi, ht, ht', ht'', hlocal, htop⟩ :=
    tokens_forms hnames he hb r
  obtain ⟨-, n, _, -, hx⟩ := he.derives hx₀ (bindingEnd r f ps)
  obtain ⟨-, m, _, -, hc⟩ := hb.derives hb₀ q₁
  obtain ⟨q, m', _, hdecl, hc'⟩ := hb.derives hb₀ q₂
  have hread := parse_eq_read (localText r f ps e b)
  have hread' := parse_eq_read (topText r f ps e b)
  rw [hlocal] at hread
  rw [htop, read_top hhs (derives_bound hx) hl hreadable ht' ht'' hdecl] at hread'
  obtain ⟨htop_declarations, htop_errors⟩ := Prod.mk.inj hread'
  -- The expression behind stands at two places, and each of its trees is the other one moved.
  have hthere := movable_derives (q₁.shift q₂) _ _ _ _ _ hc
  have hback := movable_derives (q₂.shift q₁) _ _ _ _ _ hc'
  rw [← significant_shift] at hthere hback
  have hforms : BothForms r ps x₀ b₀ _ _ _ :=
    ⟨⟨_, rfl⟩, ⟨_, rfl⟩, hreadable.distinct, hreadable.isLambda, shaped_derives _ .expression trivial _ _ _ hx,
      shaped_derives _ .expression trivial _ _ _ hc, shaped_derives _ .expression trivial _ _ _ hc',
      ⟨_, derives_unique hc' hthere⟩, ⟨_, derives_unique hc hback⟩⟩
  refine ⟨l.pos, q, _, _, _, hforms, htop_errors, htop_declarations, ?_⟩
  by_cases hbody : ∃ loose, Derives nestingBudget .expression loose (significant (Lexer.body q₁ b.toList))
      (b₀.moved (Pos.first.shift q₁))
  · rw [read_local hhs (derives_bound hx) hl hreadable hi ht hbody] at hread
    obtain ⟨hlocal_declarations, hlocal_errors⟩ := Prod.mk.inj hread
    exact .inl ⟨hlocal_errors, hlocal_declarations⟩
  · right
    rw [(Prod.mk.inj hread).2]
    exact read_local_deep hhs (derives_bound hx) hl hreadable hi ht hc hbody

end

end Camlet
