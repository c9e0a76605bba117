import Camlet.Proofs.Names
import Camlet.Proofs.Places
import Mathlib.Data.List.Forall2

/-
  Texts in pieces. A piece is closed if nothing in it is malformed and it ends with a separator, comments
  apart. Closed pieces that are joined by ends of lines are read one after the other, each of them as it is
  read on its own, but for the places.

  An end of line is blank, so it cuts the tokens of the pieces apart; the separator in front of it cuts
  their declarations apart.
-/

namespace Camlet

/-- The last token of a text, comments and the end of input apart. -/
def lastToken? (source : String) : Option Token :=
  ((tokenize source).filter fun t => t.kind != .comment && t.kind != .endOfInput).getLast?

/-- A text in which nothing is malformed, and whose last token is a separator, comments apart, if there is
any token. -/
structure Closed (source : String) : Prop where
  sound : ∀ t ∈ tokenize source, t.kind ≠ .error
  last : ∀ t ∈ lastToken? source, t.isA .delimiter ";;" = true

instance (source : String) : Decidable (Closed source) :=
  decidable_of_iff ((∀ t ∈ tokenize source, t.kind ≠ .error) ∧
    ∀ t ∈ lastToken? source, t.isA .delimiter ";;" = true) ⟨fun h => ⟨h.1, h.2⟩, fun h => ⟨h.sound, h.last⟩⟩

/-! ## Places in a piece -/

/-- A place as it is counted from the line of `start` on. -/
def Pos.from (start p : Pos) : Pos := ⟨p.line - (start.line - 1), p.column⟩

theorem Pos.from_self {start : Pos} (h : start.column = 1) : start.from start = .first := by
  rw [Pos.from, h, Int.sub_sub_self]
  rfl

theorem Pos.carries_from (start : Pos) : Pos.Carries start.from start := by
  intro p c _
  have hline : p.line + 1 - (start.line - 1) = p.line - (start.line - 1) + 1 := by omega
  unfold Pos.from Pos.step
  split
  · exact congrArg (Pos.mk · 1) hline
  · rfl

theorem significant_moved (f : Pos → Pos) (ts : List Token) :
    significant (ts.map (Token.moved f)) = (significant ts).map (Token.moved f) := by
  rw [significant, List.filter_map]
  rfl

/-- The tokens of a piece, from those that it has where it stands. -/
theorem body_first {pos : Pos} (h : pos.column = 1) (cs : List Char) :
    Lexer.body .first cs = (Lexer.body pos cs).map (Token.moved pos.from) := by
  rw [← body_moved pos.carries_from, Pos.from_self h]

/-! ## Pieces on their own -/

/-- The text is read without a fault, as the declarations given but for their places. -/
def ReadElsewhere (source : String) (ds : List Node) : Prop :=
  (parse source).errors = [] ∧ ∃ f, (parse source).declarations = ds.map (Node.moved f)

section

variable {source : String} {pos : Pos} {ds : List Node}

theorem readElsewhere (stop : Pos) (hpos : pos.column = 1)
    (h : Parsed.read nestingBudget stop (significant (Lexer.body pos source.toList)) = (ds, [])) :
    ReadElsewhere source ds := by
  have hparse := parse_eq_read source
  rw [body_first hpos, significant_moved, read_moved h] at hparse
  obtain ⟨hds, hfs⟩ := Prod.mk.inj hparse
  exact ⟨hfs, _, hds⟩

theorem filter_tokenize (source : String) :
    (tokenize source).filter (fun t => t.kind != .comment && t.kind != .endOfInput) =
      significant (Lexer.body .first source.toList) := by
  rw [tokenize_eq_body, List.filter_append, significant]
  have hbody : ∀ t ∈ Lexer.body .first source.toList,
      (t.kind != .comment && t.kind != .endOfInput) = (t.kind != .comment) := by
    intro t ht
    simp [(Lexer.body_lexed _ _ t ht).kind_ne_endOfInput]
  rw [List.filter_congr hbody]
  exact List.append_nil _

/-- A closed text has no significant token, or its last one is a separator. -/
theorem Closed.ends (h : Closed source) (hpos : pos.column = 1) :
    significant (Lexer.body pos source.toList) = [] ∨
      ∃ ts sep, significant (Lexer.body pos source.toList) = ts ++ [sep] ∧
        sep.isA .delimiter ";;" = true := by
  rcases List.eq_nil_or_concat (significant (Lexer.body pos source.toList)) with hnil | ⟨ts, sep, heq⟩
  · exact .inl hnil
  · rw [List.concat_eq_append] at heq
    refine .inr ⟨ts, sep, heq, h.last (sep.moved pos.from) ?_⟩
    rw [lastToken?, filter_tokenize, body_first hpos, significant_moved, heq]
    simp

/-- A closed text in front of another is read on its own. -/
theorem Closed.read_append (h : Closed source) (hpos : pos.column = 1) {stop : Pos} (more : List Token)
    (hread : Parsed.read nestingBudget stop (significant (Lexer.body pos source.toList) ++ more) = (ds, [])) :
    ∃ ds₁ ds₂, ds = ds₁ ++ ds₂ ∧ ReadElsewhere source ds₁ ∧
      Parsed.read nestingBudget stop more = (ds₂, []) := by
  rcases h.ends hpos with hnil | ⟨ts, sep, heq, hsep⟩
  · refine ⟨[], ds, rfl, readElsewhere .first hpos ?_, ?_⟩
    · rw [hnil]
      rfl
    · rwa [hnil, List.nil_append] at hread
  · rw [heq, List.append_assoc, List.singleton_append,
      Camlet.read_append hsep nestingBudget stop .first] at hread
    obtain ⟨hds, hfs⟩ := Prod.mk.inj hread
    obtain ⟨hfront, hback⟩ := List.append_eq_nil_iff.mp hfs
    refine ⟨_, _, hds.symm, readElsewhere .first hpos ?_, Prod.ext rfl hback⟩
    rw [heq]
    exact Prod.ext rfl hfront

end

/-! ## Joined pieces -/

/-- All that is read is declarations, also where something else fails. -/
theorem parse_declarations (source : String) : ∀ d ∈ (parse source).declarations, IsDeclaration d := by
  unfold Parsed.declarations
  cases hp : (parse source).program with
  | none => exact List.forall_mem_nil _
  | some p => exact parse_isDeclaration hp

/-- No identifier is `-`, the name under which results of expressions are shown. -/
theorem Lexed.lexeme_ne_dash {t : Token} (h : Lexed t) (hk : t.kind = .identifier) : t.lexeme ≠ "-" := by
  intro hdash
  obtain ⟨c, cs, -, ht⟩ := h
  have hkind : (Lexer.scan c cs).kind = .identifier := by rw [← hk, ← ht]; rfl
  have hlexeme : (Lexer.scan c cs).lexeme = "-" := by rw [← hdash, ← ht]; rfl
  obtain ⟨hwhole, -, hcovers⟩ := scan_cutFrom c cs
  rw [hkind, hlexeme] at hcovers
  have hspan : (Lexer.scan c cs).span = ['-'] := hcovers.symm
  rw [hspan] at hwhole
  -- A token of that text is cut by the scanner for symbols, which gives no identifiers.
  obtain rfl : '-' = c := (List.cons.inj hwhole).1
  have hsymbol := symbol_kind '-' cs
  rw [show Lexer.symbol '-' cs = Lexer.scan '-' cs from rfl, hkind] at hsymbol
  exact absurd hsymbol (by decide)

theorem Phrase.Declares.declared?_eq {pos : Pos} {b : Camlet.Binding} {d : Node} (h : Phrase.Declares pos b d) :
    d.declared? = some b.name := by
  cases h <;> rfl

/-- A declaration that is read from the tokens of a text never declares that name. -/
theorem Phrase.Declaration.declared_ne_dash {n : Nat} {ts : List Token} {d : Node}
    (h : Phrase.Declaration (Derives n) ts d) (hts : ∀ t ∈ ts, Lexed t) : d.declared? ≠ some "-" := by
  cases h with
  | binding _ hb hd =>
    have hts := (List.forall_mem_cons.mp hts).2
    rw [hd.declared?_eq, ne_eq, Option.some_inj]
    cases hb with
    | plain hname => exact (hts _ (List.mem_cons_self ..)).lexeme_ne_dash hname
    | recursive _ hname =>
      exact (hts _ (List.mem_cons_of_mem _ (List.mem_cons_self ..))).lexeme_ne_dash hname
  | letIn => nofun
  | expression => nofun

theorem Phrase.Declarations.declared_ne_dash {n : Nat} {ts : List Token} {ds : List Node}
    (h : Phrase.Declarations (Derives n) ts ds) (hts : ∀ t ∈ ts, Lexed t) :
    ∀ d ∈ ds, d.declared? ≠ some "-" := by
  induction h with
  | nil => exact List.forall_mem_nil _
  | cons hd _ _ _ ih =>
    obtain ⟨hfront, hrest⟩ := List.forall_mem_append.mp hts
    exact List.forall_mem_cons.mpr ⟨hd.declared_ne_dash (List.forall_mem_append.mp hfront).1, ih hrest⟩

theorem parse_declared_ne_dash {source : String} (herrors : (parse source).errors = []) :
    ∀ d ∈ (parse source).declarations, d.declared? ≠ some "-" := by
  have hparse := parse_eq_read source
  rw [herrors] at hparse
  have hlexed : ∀ t ∈ significant (Lexer.body .first source.toList), Lexed t := fun t ht =>
    Lexer.body_lexed _ _ t (List.mem_of_mem_filter ht)
  have hprogram := (collect_eq_nil (Nat.le_refl _)).mp hparse.symm
  generalize significant (Lexer.body .first source.toList) = ts at hlexed hprogram
  cases hprogram with
  | mk _ hds => exact hds.declared_ne_dash (List.forall_mem_append.mp hlexed).2

end Camlet
