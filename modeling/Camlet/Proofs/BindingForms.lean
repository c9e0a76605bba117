import Camlet.Proofs.RoundTrip
import Camlet.Proofs.Separation

/-
  The two forms of a binding, as tokens: `let … = e in b ;;` and `let … = e ;; b ;;`. Up to the end of `e`
  both are read in the same way, whatever follows, so either both bindings are read or both fail. What
  follows is read with one level of nesting less behind `in`, so there a nesting may be too deep that is not
  at the top.
-/

namespace Camlet

open Stateful

/-! ## Expressions in front of other tokens -/

/-- Tokens with which no expression goes on, neither by itself nor behind the `=` of a binding. -/
def Closes (rest : List Token) : Prop := ∀ loose, Stops (Nonterminal.expression.goesOn loose) rest

theorem closes_in {i : Token} (hi : i.isA .keyword "in" = true) (rest : List Token) : Closes (i :: rest) := by
  intro loose
  rw [stops_cons, goesOn_eq hi]
  cases loose <;> rfl

theorem closes_separator {s : Token} (hs : isSeparator s = true) (rest : List Token) : Closes (s :: rest) := by
  have hs' : s.isA .delimiter ";;" = true := hs
  intro loose
  rw [stops_cons, goesOn_eq hs']
  cases loose <;> rfl

section

variable {n m : Nat} {loose : Bool} {es rest s : List Token} {x v : Node} (nt : Nonterminal) (hnt : nt.Proper)
  (he : Derives n nt loose es x) (hrest : ∀ loose, Stops (nt.goesOn loose) rest)

include hnt he hrest

/-- A phrase is read in front of what closes it, if it is within the budget, and nothing else is. -/
theorem parse_phrase_iff :
    nt.parse m (es ++ rest) = .ok v s ↔ (∃ loose, Derives m nt loose es x) ∧ v = x ∧ s = rest := by
  have hn := (recognizes_parse n nt hnt).reads he (hrest loose)
  constructor
  · intro hm
    -- Within the larger of the two budgets both are read, so they are the same.
    have hx := (extends_parse (Nat.le_max_left n m) nt).ok hn
    have hv := (extends_parse (Nat.le_max_right n m) nt).ok hm
    obtain ⟨rfl, rfl⟩ : x = v ∧ rest = s := by
      rw [hx] at hv
      cases hv
      exact ⟨rfl, rfl⟩
    obtain ⟨l, us, hus, hd, -⟩ := (recognizes_parse m nt hnt).phrase hm
    exact ⟨⟨l, (List.append_cancel_right hus) ▸ hd⟩, rfl, rfl⟩
  · rintro ⟨⟨l, hd⟩, rfl, rfl⟩
    exact (recognizes_parse m nt hnt).reads hd (hrest l)

/-- A phrase that is not within the budget is not read for its nesting. -/
theorem parse_phrase_deep (hm : ¬ ∃ loose, Derives m nt loose es x) :
    ∃ left, nt.parse m (es ++ rest) = .error .tooDeep left := by
  have hn := (recognizes_parse n nt hnt).reads he (hrest loose)
  have hx := (extends_parse (Nat.le_max_left n m) nt).ok hn
  rcases (extends_parse (Nat.le_max_right n m) nt).ok_or hx with h | h
  · exact absurd ((parse_phrase_iff nt hnt he hrest).mp h).1 hm
  · exact h

end

/-! ## Bindings -/

/-- The words of a binding, behind its `let` and up to its expression. -/
def Word.header (r : Bool) (f : String) (ps : List String) : List Word :=
  recursive r ++ name f :: ps.map name ++ [operator "="]

theorem spells_names {ts : List Token} {ps : List String} (h : Spells ts (ps.map Word.name)) :
    (∀ t ∈ ts, isName t = true) ∧ ts.map (·.lexeme) = ps := by
  induction ps generalizing ts with
  | nil =>
    obtain rfl := spells_nil.mp h
    exact ⟨List.forall_mem_nil _, rfl⟩
  | cons p ps ih =>
    obtain ⟨t, us, rfl, ht, hus⟩ := spells_cons.mp h
    obtain ⟨hkind, hlex⟩ := Token.isA_iff.mp ht
    obtain ⟨hnames, hmap⟩ := ih hus
    exact ⟨List.forall_mem_cons.mpr ⟨by simp [isName, hkind, Word.name], hnames⟩, by simp [hlex, hmap, Word.name]⟩

/-- Names end where the first token stands that is none. -/
theorem names_unique {ps qs as bs : List Token} {a b : Token} (hps : ∀ t ∈ ps, isName t = true)
    (hqs : ∀ t ∈ qs, isName t = true) (ha : isName a = false) (hb : isName b = false)
    (h : ps ++ a :: as = qs ++ b :: bs) : ps = qs ∧ as = bs := by
  have htake := congrArg (List.takeWhile isName) h
  rw [List.takeWhile_append_of_pos hps, List.takeWhile_append_of_pos hqs, List.takeWhile_cons_of_neg (by simp [ha]),
    List.takeWhile_cons_of_neg (by simp [hb]), List.append_nil, List.append_nil] at htake
  subst htake
  exact ⟨rfl, (List.cons.inj (List.append_cancel_left h)).2⟩

section

variable {r : Bool} {f : String} {ps : List String} {hs : List Token} (hh : Spells hs (Word.header r f ps))

include hh

/-- A binding is read as its header says: no parameter may come twice, and with `rec` and no parameters the
expression must be a function. -/
theorem binding_header {sub : Nonterminal → Parser Node} {ts s : List Token} {b : Binding} :
    Grammar.binding sub (hs ++ ts) = .ok b s ↔
      (ps.filter (· ≠ "_")).Nodup ∧ ∃ v, sub .bound ts = .ok v s ∧
        (r = true → ps = [] → v.isLambda = true) ∧ b = ⟨r, f, ps, v⟩ := by
  obtain ⟨us, eqs, rfl, hus, heqs⟩ := spells_append.mp hh
  obtain ⟨recs, ns, rfl, hrecs, hns⟩ := spells_append.mp hus
  obtain ⟨name, pts, rfl, hname, hpts⟩ := spells_cons.mp hns
  obtain ⟨eq, after, rfl, heq, hnil⟩ := spells_cons.mp heqs
  obtain rfl := spells_nil.mp hnil
  obtain ⟨hkind, rfl⟩ := Token.isA_iff.mp hname
  obtain ⟨hnames, rfl⟩ := spells_names hpts
  have hkinds : ∀ p ∈ pts, p.kind = .identifier := fun p hp => by simpa [isName] using hnames p hp
  have hnot : ∀ {t : Token}, t.isA .operator "=" = true → isName t = false := fun ht => by
    simp [isName, (Token.isA_iff.mp ht).1]
  have haccept : Parser.accept .keyword "rec" (recs ++ (name :: pts ++ eq :: ts)) =
      .ok r (name :: pts ++ eq :: ts) := by
    cases r with
    | false =>
      obtain rfl := spells_nil.mp hrecs
      exact accept_false (stops_cons.mpr (by simp [Token.isA, hkind, Word.name]))
    | true =>
      obtain ⟨t, after, rfl, ht, hnil⟩ := spells_cons.mp hrecs
      obtain rfl := spells_nil.mp hnil
      exact accept_true ht
  have hlist : recs ++ name :: pts ++ [eq] ++ ts = recs ++ (name :: pts ++ eq :: ts) := by simp
  rw [hlist, binding_eq_ok]
  constructor
  · rintro ⟨r', s', ha, name', pts', eq', ts', v, rfl, -, hps, heq', hv, hlam, rfl⟩
    rw [haccept] at ha
    injection ha with hr hnames'
    subst hr
    obtain ⟨rfl, htail⟩ := List.cons.inj hnames'
    obtain ⟨rfl, rfl⟩ := names_unique hnames (fun p hp => by simp [isName, hps.names p hp]) (hnot heq)
      (hnot heq') htail
    exact ⟨hps.distinct, v, hv, fun hr hnil => hlam hr (List.map_eq_nil_iff.mp hnil), rfl⟩
  · rintro ⟨hdistinct, v, hv, hlam, rfl⟩
    exact ⟨r, _, haccept, name, pts, eq, ts, v, rfl, hkind, ⟨hkinds, hdistinct⟩, heq, hv,
      fun hr hnil => hlam hr (List.map_eq_nil_iff.mpr hnil), rfl⟩

end

/-- What makes a binding readable: its parameters are distinct, its expression is within the budget, and with
`rec` and no parameters it is a function. -/
structure Bindable (budget : Nat) (r : Bool) (ps : List String) (es : List Token) (x : Node) : Prop where
  distinct : (ps.filter (· ≠ "_")).Nodup
  derives : ∃ loose, Derives budget .bound loose es x
  isLambda : r = true → ps = [] → x.isLambda = true

section

variable {budget n m : Nat} {r loose : Bool} {f : String} {ps : List String} {hs es rest s : List Token}
  {x b : Node} {stop q : Pos} {l i t t' : Token} (hh : Spells hs (Word.header r f ps))
  (he : Derives n .bound loose es x)

include hh he

/-- Whether a binding is read does not depend on what closes it. -/
theorem binding_iff {bd : Binding} (hrest : Closes rest) :
    Grammar.binding (Nonterminal.parse budget) (hs ++ (es ++ rest)) = .ok bd s ↔
      Bindable budget r ps es x ∧ bd = ⟨r, f, ps, x⟩ ∧ s = rest := by
  rw [binding_header hh]
  constructor
  · rintro ⟨hdistinct, v, hv, hlam, rfl⟩
    obtain ⟨hderives, rfl, rfl⟩ := (parse_phrase_iff .bound trivial he hrest).mp hv
    exact ⟨⟨hdistinct, hderives, hlam⟩, rfl, rfl⟩
  · rintro ⟨hb, rfl, rfl⟩
    exact ⟨hb.distinct, x, (parse_phrase_iff .bound trivial he hrest).mpr ⟨hb.derives, rfl, rfl⟩, hb.isLambda, rfl⟩

variable (hl : l.isA .keyword "let" = true)

include hl

/-- Where tokens are read without a fault that start with a binding, it is one that can be read. -/
theorem bindable_of_read (hrest : Closes rest)
    (herrors : (Parsed.read budget stop (l :: (hs ++ (es ++ rest)))).2 = []) : Bindable budget r ps es x := by
  have hsep : isSeparator l = false := by simp [isSeparator, Token.isA, (Token.isA_iff.mp hl).1]
  cases hd : Grammar.declaration (Nonterminal.parse budget) (l :: (hs ++ (es ++ rest))) with
  | error e left =>
    rw [Parsed.read_error hsep hd] at herrors
    cases herrors
  | ok d left =>
    rw [declaration_let hl, Grammar.letDeclaration, bind_eq_ok] at hd
    obtain ⟨bd, s, hb, -⟩ := hd
    exact ((binding_iff hh he hrest).mp hb).1

omit hl in
theorem Bindable.phrase (hb : Bindable budget r ps es x) :
    ∃ loose, Phrase.Binding (Derives budget) loose (hs ++ es) ⟨r, f, ps, x⟩ := by
  have hclosed : Closes [] := fun _ => stops_nil _
  obtain ⟨loose, us, hus, hphrase, -⟩ :=
    (recognizes_binding_parse budget).phrase ((binding_iff hh he hclosed).mpr ⟨hb, rfl, rfl⟩)
  rw [List.append_nil, List.append_nil] at hus
  exact ⟨loose, hus ▸ hphrase⟩

/-- A binding at the top is read, and the expression behind it as a declaration of its own. -/
theorem read_top (hb : Bindable budget r ps es x) (ht : isSeparator t = true) (ht' : isSeparator t' = true)
    {bs : List Token} (hbody : Phrase.Declaration (Derives budget) bs (.exprStmt q b)) :
    Parsed.read budget stop (l :: (hs ++ (es ++ t :: (bs ++ [t'])))) =
      ([Grammar.declarationOf l.pos ⟨r, f, ps, x⟩, .exprStmt q b], []) := by
  obtain ⟨_, hphrase⟩ := hb.phrase hh he
  have hfirst := Phrase.Declaration.binding hl hphrase (Phrase.declares_iff.mpr rfl)
  have hseps : ∀ {t}, isSeparator t = true → Phrase.Separators [t] := fun ht =>
    separators_cons.mpr ⟨ht, separators_nil⟩
  have hsecond : Phrase.Declarations (Derives budget) (bs ++ [t'] ++ []) [.exprStmt q b] :=
    .cons hbody (hseps ht') (.inl (List.cons_ne_nil _ _)) .nil
  have hboth := Phrase.Declarations.cons hfirst (hseps ht) (.inl (List.cons_ne_nil _ _)) hsecond
  refine (collect_eq_nil (Nat.le_refl _)).mpr ?_
  have hprogram := hboth.program
  simpa using hprogram

/-- A local binding is read if the expression behind it is within the budget. -/
theorem read_local (hb : Bindable budget r ps es x) (hi : i.isA .keyword "in" = true)
    (ht : isSeparator t = true) {bs : List Token} (hbody : ∃ loose, Derives budget .expression loose bs b) :
    Parsed.read budget stop (l :: (hs ++ (es ++ i :: (bs ++ [t])))) =
      ([.exprStmt l.pos (.letIn l.pos f (.curry l.pos ps x) b r)], []) := by
  obtain ⟨_, hphrase⟩ := hb.phrase hh he
  obtain ⟨_, hbody⟩ := hbody
  have hsep : Phrase.Separators [t] := separators_cons.mpr ⟨ht, separators_nil⟩
  have hlet : Phrase.LetIn (Derives budget) l.pos _ _ _ :=
    .mk hphrase hi hbody (Phrase.curried_curry l.pos x ps)
  have honly := Phrase.Declarations.cons (.letIn hl hlet) hsep (.inl (List.cons_ne_nil _ _)) .nil
  refine (collect_eq_nil (Nat.le_refl _)).mpr ?_
  have hprogram := honly.program
  simpa using hprogram

/-- If that is beyond the budget, the local binding is nested too deeply. -/
theorem read_local_deep (hb : Bindable budget r ps es x) (hi : i.isA .keyword "in" = true)
    (ht : isSeparator t = true) {bs : List Token} {l' : Bool} (hbody : Derives m .expression l' bs b)
    (hdeep : ¬ ∃ loose, Derives budget .expression loose bs b) :
    ∃ fault ∈ (Parsed.read budget stop (l :: (hs ++ (es ++ i :: (bs ++ [t]))))).2, fault.val = .tooDeep := by
  have hsep : isSeparator l = false := by simp [isSeparator, Token.isA, (Token.isA_iff.mp hl).1]
  obtain ⟨left, hleft⟩ := parse_phrase_deep .expression trivial hbody (closes_separator ht []) hdeep
  have hbinding := (binding_iff hh he (closes_in hi (bs ++ [t]))).mpr ⟨hb, rfl, rfl⟩
  have hd : Grammar.declaration (Nonterminal.parse budget) (l :: (hs ++ (es ++ i :: (bs ++ [t])))) =
      .error .tooDeep left := by
    rw [declaration_let hl, Grammar.letDeclaration, bind_ok hbinding, bind_ok (accept_true hi), if_pos rfl,
      bind_run, hleft]
  rw [Parsed.read_error hsep hd]
  exact ⟨_, List.mem_cons_self .., rfl⟩

end

end Camlet
