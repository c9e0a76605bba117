import Camlet.Proofs.Spelling
import Camlet.Tree.Parser

/-
  Printing trees as source text. Every expression stands in brackets, words are separated by single
  spaces, and each declaration is followed by `;;`. The trees that are printed are those whose names,
  literals and operators can be spelled.
-/

namespace Camlet

/-- Whether a text is a word that may name something: neither a keyword nor an operator. -/
def isIdentifier (s : String) : Bool := isWord s && Lexer.wordKind s == .identifier

namespace Word

/-- A keyword. -/
def keyword (s : String) : Word := ⟨.keyword, s⟩

/-- An operator. -/
def operator (s : String) : Word := ⟨.operator, s⟩

/-- A delimiter. -/
def delimiter (s : String) : Word := ⟨.delimiter, s⟩

/-- A name, bare. -/
def name (s : String) : Word := ⟨.identifier, s⟩

/-- Words in brackets. -/
def bracket (ws : List Word) : List Word := delimiter "(" :: ws ++ [delimiter ")"]

/-- The `rec` of a recursive binding. -/
def recursive (r : Bool) : List Word := if r then [keyword "rec"] else []

end Word

namespace Node

open Word

/-- The word of a pattern. -/
def patternWord : Node → Word
  | bind _ x => Word.name x
  | _ => Word.name "_"

mutual

/-- The words of an expression without the brackets around it. -/
def words : Node → List Word
  | letIn _ x v b r =>
    keyword "let" :: recursive r ++ Word.name x :: operator "=" :: bracket v.words ++
      keyword "in" :: bracket b.words
  | cond _ c t e =>
    keyword "if" :: bracket c.words ++ keyword "then" :: bracket t.words ++
      keyword "else" :: bracket e.words
  | matching _ s cs => keyword "match" :: bracket s.words ++ keyword "with" :: casesWords cs
  | lambda _ p b => keyword "fun" :: Word.name p :: operator "->" :: bracket b.words
  | apply _ f a => bracket f.words ++ bracket a.words
  | binary _ o l r => bracket l.words ++ operator o :: bracket r.words
  | unary _ o e => operator o :: bracket e.words
  | intLit _ n => [⟨.int, Number.writeNat n.toNat⟩]
  | stringLit _ s => [⟨.string, s⟩]
  | charLit _ s => [⟨.char, s⟩]
  | ident _ x => [⟨if isIdentifier x then .identifier else .backtickIdent, x⟩]
  | _ => []

/-- The words of cases. -/
def casesWords : List (Node × Node) → List Word
  | [] => []
  | (p, e) :: cs => delimiter "|" :: p.patternWord :: operator "->" :: bracket e.words ++ casesWords cs

end

/-- The words of a declaration. -/
def declarationWords : Node → List Word
  | letDecl _ x v => keyword "let" :: Word.name x :: operator "=" :: bracket v.words ++ [delimiter ";;"]
  | funDecl _ f ps b r =>
    keyword "let" :: recursive r ++ Word.name f :: ps.map Word.name ++ operator "=" :: bracket b.words ++
      [delimiter ";;"]
  | exprStmt _ e => bracket e.words ++ [delimiter ";;"]
  | _ => []

mutual

/-- The height of an expression. -/
def height : Node → Nat
  | letIn _ _ v b _ => max v.height b.height + 1
  | cond _ c t e => max c.height (max t.height e.height) + 1
  | matching _ s cs => max s.height (casesHeight cs) + 1
  | lambda _ _ b => b.height + 1
  | apply _ f a => max f.height a.height + 1
  | binary _ _ l r => max l.height r.height + 1
  | unary _ _ e => e.height + 1
  | letDecl _ _ v => v.height
  | funDecl _ _ _ b _ => b.height
  | exprStmt _ e => e.height
  | _ => 1

/-- The height of the highest body. -/
def casesHeight : List (Node × Node) → Nat
  | [] => 0
  | (_, e) :: cs => max e.height (casesHeight cs)

end

theorem casesHeight_le_iff {cs : List (Node × Node)} {n : Nat} :
    casesHeight cs ≤ n ↔ ∀ c ∈ cs, c.2.height ≤ n := by
  induction cs with
  | nil => simp [casesHeight]
  | cons c cs ih => rw [casesHeight, Nat.max_le, ih, List.forall_mem_cons]

mutual

/-- The tree without its places. -/
def unplaced : Node → Node
  | wildcard _ => wildcard {}
  | bind _ x => bind {} x
  | program _ ds => program {} (unplacedList ds)
  | letDecl _ x v => letDecl {} x v.unplaced
  | funDecl _ f ps b r => funDecl {} f ps b.unplaced r
  | exprStmt _ e => exprStmt {} e.unplaced
  | letIn _ x v b r => letIn {} x v.unplaced b.unplaced r
  | cond _ c t e => cond {} c.unplaced t.unplaced e.unplaced
  | matching _ s cs => matching {} s.unplaced (unplacedCases cs)
  | lambda _ p b => lambda {} p b.unplaced
  | apply _ f a => apply {} f.unplaced a.unplaced
  | binary _ o l r => binary {} o l.unplaced r.unplaced
  | unary _ o e => unary {} o e.unplaced
  | intLit _ n => intLit {} n
  | floatLit _ x => floatLit {} x
  | stringLit _ s => stringLit {} s
  | charLit _ s => charLit {} s
  | ident _ x => ident {} x

/-- Trees without their places. -/
def unplacedList : List Node → List Node
  | [] => []
  | n :: ns => n.unplaced :: unplacedList ns

/-- Cases without their places. -/
def unplacedCases : List (Node × Node) → List (Node × Node)
  | [] => []
  | (p, e) :: cs => (p.unplaced, e.unplaced) :: unplacedCases cs

end

end Node

/-- The source text of declarations. -/
def printed (ds : List Node) : String := spell (ds.flatMap Node.declarationWords)

/-- A pattern that can be printed. -/
inductive PrintablePattern : Node → Prop
  | wildcard (pos : Pos) : PrintablePattern (.wildcard pos)
  | bind (pos : Pos) {x : String} : isIdentifier x = true → x ≠ "_" → PrintablePattern (.bind pos x)

/-- An expression that can be printed: its binders are names, its other names can be put between
backticks, its numbers are neither negative nor too long, and its operators are those of the grammar. -/
inductive Printable : Node → Prop
  | letIn (pos : Pos) {x : String} {v b : Node} {r : Bool} :
    isIdentifier x = true → Printable v → (r = true → v.isLambda = true) → Printable b →
    Printable (.letIn pos x v b r)
  | cond (pos : Pos) {c t e : Node} : Printable c → Printable t → Printable e → Printable (.cond pos c t e)
  | matching (pos : Pos) {s : Node} {cs : List (Node × Node)} :
    Printable s → cs ≠ [] → (∀ c ∈ cs, PrintablePattern c.1) → (∀ c ∈ cs, Printable c.2) →
    Printable (.matching pos s cs)
  | lambda (pos : Pos) {p : String} {b : Node} : isIdentifier p = true → Printable b → Printable (.lambda pos p b)
  | apply (pos : Pos) {f a : Node} : Printable f → Printable a → Printable (.apply pos f a)
  | binary (pos : Pos) {o : String} {l r : Node} :
    o ∈ operatorLevels.flatten → o ≠ "or" → Printable l → Printable r → Printable (.binary pos o l r)
  | unary (pos : Pos) {o : String} {e : Node} : o = "-" ∨ o = "-." → Printable e → Printable (.unary pos o e)
  | intLit (pos : Pos) {n : Int} :
    0 ≤ n → (Number.digits n.toNat).length ≤ Number.maxDigits → Printable (.intLit pos n)
  | stringLit (pos : Pos) (s : String) : Printable (.stringLit pos s)
  | charLit (pos : Pos) (c : Char) : Printable (.charLit pos (String.singleton c))
  | ident (pos : Pos) {x : String} :
    isIdentifier x = true ∨ (x ≠ "" ∧ '\x60' ∉ x.toList) → Printable (.ident pos x)

/-- A declaration that can be printed. -/
inductive PrintableDeclaration : Node → Prop
  | letDecl (pos : Pos) {x : String} {v : Node} :
    isIdentifier x = true → Printable v → PrintableDeclaration (.letDecl pos x v)
  | funDecl (pos : Pos) {f : String} {ps : List String} {b : Node} (r : Bool) :
    isIdentifier f = true → ps ≠ [] → (∀ p ∈ ps, isIdentifier p = true) → (ps.filter (· ≠ "_")).Nodup →
    Printable b → PrintableDeclaration (.funDecl pos f ps b r)
  | exprStmt (pos : Pos) {e : Node} : Printable e → PrintableDeclaration (.exprStmt pos e)

/-! ## What is printed is cut -/

theorem isCut_name {s : String} (h : isIdentifier s = true) : (Word.name s).IsCut := by
  obtain ⟨hword, hkind⟩ := (Bool.and_eq_true _ _).mp h
  have := isCut_word hword
  rwa [eq_of_beq hkind] at this

theorem isCut_keyword {s : String} (h : s ∈ ["let", "rec", "in", "if", "then", "else", "fun", "match", "with"]) :
    (Word.keyword s).IsCut := by
  have hall : ∀ s ∈ ["let", "rec", "in", "if", "then", "else", "fun", "match", "with"],
      isWord s = true ∧ Lexer.wordKind s = .keyword := by decide
  have := isCut_word (hall s h).1
  rwa [(hall s h).2] at this

theorem isCut_delimiter {s : String} (h : s ∈ delimiters) : (Word.delimiter s).IsCut := by
  have hall : ∀ s ∈ delimiters, s ∈ symbols ∧ Lexer.symbolKind s = .delimiter := by decide
  have := isCut_symbol (hall s h).1
  rwa [(hall s h).2] at this

theorem isCut_operator {s : String} (h : s ∈ "->" :: operatorLevels.flatten) (hor : s ≠ "or") :
    (Word.operator s).IsCut := by
  have hall : ∀ s ∈ "->" :: operatorLevels.flatten, s ≠ "or" →
      s = "mod" ∨ (s ∈ symbols ∧ Lexer.symbolKind s = .operator) := by decide
  rcases hall s h hor with rfl | ⟨hmem, hkind⟩
  · exact isCut_word (s := "mod") (by decide)
  · have := isCut_symbol hmem
    rwa [hkind] at this

theorem isCut_pattern {p : Node} (h : PrintablePattern p) : p.patternWord.IsCut := by
  cases h with
  | wildcard => exact isCut_name (by decide)
  | bind _ hx => exact isCut_name hx

/-- Words that are all cut. -/
def AllCut (ws : List Word) : Prop := ∀ w ∈ ws, w.IsCut

theorem allCut_nil : AllCut [] := by simp [AllCut]

theorem allCut_cons {w : Word} {ws : List Word} : AllCut (w :: ws) ↔ w.IsCut ∧ AllCut ws := by
  simp [AllCut]

theorem allCut_append {vs ws : List Word} : AllCut (vs ++ ws) ↔ AllCut vs ∧ AllCut ws := by
  simp [AllCut, or_imp, forall_and]

theorem AllCut.bracket {ws : List Word} (h : AllCut ws) : AllCut (Word.bracket ws) := by
  rw [Word.bracket, List.cons_append, allCut_cons, allCut_append, allCut_cons]
  exact ⟨isCut_delimiter (by decide), h, isCut_delimiter (by decide), allCut_nil⟩

theorem allCut_recursive (r : Bool) : AllCut (Word.recursive r) := by
  cases r with
  | false => exact allCut_nil
  | true => exact allCut_cons.mpr ⟨isCut_keyword (by decide), allCut_nil⟩

theorem allCut_casesWords {cs : List (Node × Node)} (hp : ∀ c ∈ cs, PrintablePattern c.1)
    (he : ∀ c ∈ cs, AllCut c.2.words) : AllCut (Node.casesWords cs) := by
  induction cs with
  | nil => exact allCut_nil
  | cons c cs ih =>
    obtain ⟨p, e⟩ := c
    have hrest := ih (fun c hc => hp c (List.mem_cons_of_mem _ hc)) fun c hc => he c (List.mem_cons_of_mem _ hc)
    simp only [Node.casesWords, List.cons_append, allCut_cons, allCut_append]
    exact ⟨isCut_delimiter (by decide), isCut_pattern (hp _ (List.mem_cons_self ..)),
      isCut_operator (by decide) (by decide), (he _ (List.mem_cons_self ..)).bracket, hrest⟩

/-- Every word of a printed expression is cut. -/
theorem Printable.allCut {e : Node} (h : Printable e) : AllCut e.words := by
  induction h with
  | @letIn pos x v b r hx _ _ _ hv hb =>
    simp only [Node.words, List.cons_append, List.append_assoc, allCut_cons, allCut_append]
    exact ⟨isCut_keyword (by decide), allCut_recursive r, isCut_name hx,
      isCut_operator (by decide) (by decide), hv.bracket, isCut_keyword (by decide), hb.bracket⟩
  | cond pos _ _ _ hc ht he =>
    simp only [Node.words, List.cons_append, List.append_assoc, allCut_cons, allCut_append]
    exact ⟨isCut_keyword (by decide), hc.bracket, isCut_keyword (by decide), ht.bracket,
      isCut_keyword (by decide), he.bracket⟩
  | matching pos _ _ hp _ hs he =>
    simp only [Node.words, List.cons_append, allCut_cons, allCut_append]
    exact ⟨isCut_keyword (by decide), hs.bracket, isCut_keyword (by decide), allCut_casesWords hp he⟩
  | lambda pos hx _ hb =>
    simp only [Node.words, allCut_cons]
    exact ⟨isCut_keyword (by decide), isCut_name hx, isCut_operator (by decide) (by decide), hb.bracket⟩
  | apply pos _ _ hf ha =>
    simp only [Node.words, allCut_append]
    exact ⟨hf.bracket, ha.bracket⟩
  | binary pos ho hor _ _ hl hr =>
    simp only [Node.words, allCut_append, allCut_cons]
    exact ⟨hl.bracket, isCut_operator (List.mem_cons_of_mem _ ho) hor, hr.bracket⟩
  | unary pos ho _ he =>
    simp only [Node.words, allCut_cons]
    refine ⟨?_, he.bracket⟩
    rcases ho with rfl | rfl
    · exact isCut_operator (by decide) (by decide)
    · exact isCut_operator (by decide) (by decide)
  | intLit => exact allCut_cons.mpr ⟨isCut_int, allCut_nil⟩
  | stringLit pos s => exact allCut_cons.mpr ⟨isCut_string s, allCut_nil⟩
  | charLit pos c => exact allCut_cons.mpr ⟨isCut_char c, allCut_nil⟩
  | @ident pos x hx =>
    refine allCut_cons.mpr ⟨?_, allCut_nil⟩
    by_cases hname : isIdentifier x = true
    · rw [if_pos hname]
      exact isCut_name hname
    · rw [if_neg hname]
      obtain ⟨hne, hback⟩ := hx.resolve_left hname
      exact isCut_backtick hne hback

theorem PrintableDeclaration.allCut {d : Node} (h : PrintableDeclaration d) :
    AllCut d.declarationWords := by
  have hend : (Word.delimiter ";;").IsCut ∧ AllCut [] := ⟨isCut_delimiter (by decide), allCut_nil⟩
  cases h with
  | letDecl pos hx hv =>
    simp only [Node.declarationWords, List.cons_append, allCut_cons, allCut_append]
    exact ⟨isCut_keyword (by decide), isCut_name hx, isCut_operator (by decide) (by decide),
      hv.allCut.bracket, hend⟩
  | funDecl pos r hf _ hps _ hb =>
    simp only [Node.declarationWords, List.cons_append, List.append_assoc, allCut_cons, allCut_append]
    refine ⟨isCut_keyword (by decide), allCut_recursive r, isCut_name hf, ?_,
      isCut_operator (by decide) (by decide), hb.allCut.bracket, hend⟩
    intro w hw
    obtain ⟨p, hp, rfl⟩ := List.mem_map.mp hw
    exact isCut_name (hps p hp)
  | exprStmt pos he =>
    simp only [Node.declarationWords, allCut_append, allCut_cons]
    exact ⟨he.allCut.bracket, hend⟩

/-- What is printed is cut into the words that were printed. -/
theorem tokenize_printed {ds : List Node} (h : ∀ d ∈ ds, PrintableDeclaration d) :
    ∃ ts last, tokenize (printed ds) = ts ++ [last] ∧
      ts.map Token.word = ds.flatMap Node.declarationWords ∧ last.kind = .endOfInput := by
  apply tokenize_spell
  intro w hw
  obtain ⟨d, hd, hwd⟩ := List.mem_flatMap.mp hw
  exact (h d hd).allCut w hwd

end Camlet
