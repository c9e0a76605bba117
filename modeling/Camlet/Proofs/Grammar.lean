import Camlet.Tree.Parser

/-
  The grammar of programs, as a relation between tokens and trees. Each rule is a relation of its own over
  the phrases of the rules below it, and `Derives` ties the knot: it says which tree a rule gives to a
  list of tokens when at most so many rules are open at once. The trees are spelled out here, node by node:
  nothing that builds trees for the parser is used, and neither is its table of operators. That the parser
  builds these trees is what is to be proved.

  The only rule that could be read in two ways is that of case distinctions, where a case may follow one
  whose body ends in a case distinction itself. A phrase is called loose if it ends so, and only the last
  case of a case distinction may have a loose body: a bar belongs to the innermost case distinction that
  is open.
-/

namespace Camlet

/-- The values that a rule gives to lists of tokens. The flag tells whether the phrase is loose: whether it
ends in a case distinction without brackets, which a bar behind it would carry on. -/
abbrev Language (α : Type) := (loose : Bool) → List Token → α → Prop

namespace Phrase

/-- A pattern, which is one token. -/
inductive Pattern : Token → Node → Prop
  | wildcard {t : Token} : t.kind = .identifier → t.lexeme = "_" → Pattern t (.wildcard t.pos)
  | bind {t : Token} : t.kind = .identifier → t.lexeme ≠ "_" → Pattern t (.bind t.pos t.lexeme)

/-- Parameters: names, of which none but `_` comes twice. -/
structure Params (ps : List Token) : Prop where
  names : ∀ p ∈ ps, p.kind = .identifier
  distinct : ((ps.map (·.lexeme)).filter (· ≠ "_")).Nodup

/-- A function of several parameters: functions of one parameter each, one right inside the other and all of
them at `pos`, with the body in the innermost. Without parameters it is the body. -/
inductive Curried (pos : Pos) (body : Node) : List String → Node → Prop
  | body : Curried pos body [] body
  | param {p : String} {ps : List String} {e : Node} :
    Curried pos body ps e → Curried pos body (p :: ps) (.lambda pos p e)

/-- Functions of one parameter each, one right inside the other, as all of their parameters and the body of the
innermost, which is no function. -/
inductive Uncurried : Node → List String → Node → Prop
  | body {e : Node} : (∀ pos p b, e ≠ .lambda pos p b) → Uncurried e [] e
  | param {pos : Pos} {p : String} {ps : List String} {b e : Node} :
    Uncurried b ps e → Uncurried (.lambda pos p b) (p :: ps) e

variable (L : Nonterminal → Language Node)

/-- A binding: `["rec"] name name* "=" expression`, and with `rec` and no parameters a function behind
the `=`. -/
inductive Binding : Language Camlet.Binding
  | plain {loose : Bool} {name eq : Token} {ps vs : List Token} {v : Node} :
    name.kind = .identifier → Params ps → eq.isA .operator "=" → L .bound loose vs v →
    Binding loose (name :: ps ++ eq :: vs) ⟨false, name.lexeme, ps.map (·.lexeme), v⟩
  | recursive {loose : Bool} {r name eq : Token} {ps vs : List Token} {v : Node} :
    r.isA .keyword "rec" → name.kind = .identifier → Params ps → eq.isA .operator "=" →
    L .bound loose vs v → (ps = [] → ∃ pos p b, v = .lambda pos p b) →
    Binding loose (r :: name :: ps ++ eq :: vs) ⟨true, name.lexeme, ps.map (·.lexeme), v⟩

/-- What follows the `let` at `pos` of a local binding: `binding "in" expression`. The parameters are curried. -/
inductive LetIn (pos : Pos) : Language Node
  | mk {l loose : Bool} {i : Token} {bs es : List Token} {b : Camlet.Binding} {v e : Node} :
    Binding L l bs b → i.isA .keyword "in" → L .expression loose es e → Curried pos b.value b.params v →
    LetIn pos loose (bs ++ i :: es) (.letIn pos b.name v e b.recursive)

/-- What follows the `if` at `pos`: `expression "then" expression "else" expression`. -/
inductive Cond (pos : Pos) : Language Node
  | mk {l₁ l₂ loose : Bool} {t e : Token} {cs ts es : List Token} {c a b : Node} :
    L .expression l₁ cs c → t.isA .keyword "then" → L .expression l₂ ts a → e.isA .keyword "else" →
    L .expression loose es b → Cond pos loose (cs ++ t :: ts ++ e :: es) (.cond pos c a b)

/-- What follows the `fun` at `pos`: `name+ "->" expression`, with the parameters curried. -/
inductive Lambda (pos : Pos) : Language Node
  | mk {loose : Bool} {arrow : Token} {ps es : List Token} {e f : Node} :
    ps ≠ [] → Params ps → arrow.isA .operator "->" → L .expression loose es e →
    Curried pos e (ps.map (·.lexeme)) f → Lambda pos loose (ps ++ arrow :: es) f

/-- A case: `"|" pattern "->" expression`. -/
inductive Case : Language (Node × Node)
  | mk {loose : Bool} {bar t arrow : Token} {es : List Token} {p e : Node} :
    bar.isA .delimiter "|" → Pattern t p → arrow.isA .operator "->" → L .expression loose es e →
    Case loose (bar :: t :: arrow :: es) (p, e)

/-- One case or more, of which only the last may be loose. -/
inductive Cases : List Token → List (Node × Node) → Prop
  | last {loose : Bool} {ts : List Token} {c : Node × Node} : Case L loose ts c → Cases ts [c]
  | more {ts us : List Token} {c : Node × Node} {cs : List (Node × Node)} :
    Case L false ts c → Cases us cs → Cases (ts ++ us) (c :: cs)

/-- What follows the `match` at `pos`: `expression "with" case+`. Such a phrase is loose. -/
inductive Matching (pos : Pos) : Language Node
  | mk {l : Bool} {w : Token} {ss cs : List Token} {s : Node} {cases : List (Node × Node)} :
    L .expression l ss s → w.isA .keyword "with" → Cases L cs cases →
    Matching pos true (ss ++ w :: cs) (.matching pos s cases)

/-- An expression: one of the forms that a keyword starts, or operators. The six levels of operators are given
from the loosest to the tightest. -/
inductive Expression : Language Node
  | letIn {loose : Bool} {t : Token} {ts : List Token} {e : Node} :
    t.isA .keyword "let" → LetIn L t.pos loose ts e → Expression loose (t :: ts) e
  | cond {loose : Bool} {t : Token} {ts : List Token} {e : Node} :
    t.isA .keyword "if" → Cond L t.pos loose ts e → Expression loose (t :: ts) e
  | lambda {loose : Bool} {t : Token} {ts : List Token} {e : Node} :
    t.isA .keyword "fun" → Lambda L t.pos loose ts e → Expression loose (t :: ts) e
  | matching {loose : Bool} {t : Token} {ts : List Token} {e : Node} :
    t.isA .keyword "match" → Matching L t.pos loose ts e → Expression loose (t :: ts) e
  | level {loose : Bool} {ts : List Token} {e : Node} :
    L (.level [["||", "or"], ["&&"], ["==", "<>", "="], ["<", ">", "<=", ">="], ["+", "-", "+.", "-."],
      ["*", "/", "*.", "/.", "mod"]]) loose ts e → Expression loose ts e

/-- One of the operators of a level, and its name in trees: `or` is another spelling of `||`. -/
structure Operator (operators : List String) (t : Token) (name : String) : Prop where
  kind : t.kind = .operator ∨ t.kind = .keyword
  mem : t.lexeme ∈ operators
  name_eq : name = if t.lexeme = "or" then "||" else t.lexeme

/-- A level of binary operators, associating to the left: an operand, or a phrase of the level, an
operator and an operand. -/
inductive Level (operators : List String) (operand : Language Node) : Language Node
  | operand {ts : List Token} {e : Node} : operand false ts e → Level operators operand false ts e
  | binary {t : Token} {o : String} {ls rs : List Token} {l r : Node} :
    Level operators operand false ls l → Operator operators t o → operand false rs r →
    Level operators operand false (ls ++ t :: rs) (.binary l.pos o l r)

/-- Signs in front of an application. -/
inductive Unary : Language Node
  | sign {t : Token} {ts : List Token} {e : Node} :
    t.isA .operator "-" ∨ t.isA .operator "-." → L .unary false ts e →
    Unary false (t :: ts) (.unary t.pos t.lexeme e)
  | application {ts : List Token} {e : Node} : L .application false ts e → Unary false ts e

/-- A primary expression applied to any number of others, one after the other. -/
inductive Application (primary : Language Node) : Language Node
  | callee {ts : List Token} {e : Node} : primary false ts e → Application primary false ts e
  | argument {fs as : List Token} {f a : Node} :
    Application primary false fs f → primary false as a →
    Application primary false (fs ++ as) (.apply f.pos f a)

/-- A literal, a name, or an expression in brackets. -/
inductive Primary : Language Node
  | int {t : Token} {n : Int} :
    t.kind = .int → Number.readInt? t.lexeme = some n → Primary false [t] (.intLit t.pos n)
  | float {t : Token} {x : Float} :
    t.kind = .float → Number.readFloat? t.lexeme = some x → Primary false [t] (.floatLit t.pos x)
  | string {t : Token} : t.kind = .string → Primary false [t] (.stringLit t.pos t.lexeme)
  | char {t : Token} : t.kind = .char → Primary false [t] (.charLit t.pos t.lexeme)
  | ident {t : Token} : t.kind = .identifier → Primary false [t] (.ident t.pos t.lexeme)
  | backtick {t : Token} : t.kind = .backtickIdent → Primary false [t] (.ident t.pos t.lexeme)
  | bracketed {l : Bool} {o c : Token} {es : List Token} {e : Node} :
    o.isA .delimiter "(" → L .expression l es e → c.isA .delimiter ")" →
    Primary false (o :: es ++ [c]) e

end Phrase

/-- The tree that a rule gives to tokens when at most `nesting` rules are open at once. -/
def Derives : (nesting : Nat) → Nonterminal → Language Node
  | 0, _ => fun _ _ _ => False
  | n + 1, .expression => Phrase.Expression (Derives n)
  | n + 1, .bound => Derives n .expression
  | n + 1, .level [] => Derives n .unary
  | n + 1, .level (operators :: tighter) => Phrase.Level operators (Derives n (.level tighter))
  | n + 1, .unary => Phrase.Unary (Derives n)
  | n + 1, .application => Phrase.Application (Derives n .primary)
  | n + 1, .primary => Phrase.Primary (Derives n)

namespace Phrase

/-- The declaration that a binding behind the `let` at `pos` makes: of a function if it has parameters, of a value
if it has none, and with `rec` and no parameters of the function that its value is, with the parameters
uncurried. -/
inductive Declares (pos : Pos) : Camlet.Binding → Node → Prop
  | function {r : Bool} {f p : String} {ps : List String} {e : Node} :
    Declares pos ⟨r, f, p :: ps, e⟩ (.funDecl pos f (p :: ps) e r)
  | value {x : String} {v : Node} : Declares pos ⟨false, x, [], v⟩ (.letDecl pos x v)
  | recursive {f : String} {v e : Node} {ps : List String} :
    Uncurried v ps e → Declares pos ⟨true, f, [], v⟩ (.funDecl pos f ps e true)

variable (L : Nonterminal → Language Node)

/-- A declaration, without what must follow it. -/
inductive Declaration : List Token → Node → Prop
  | binding {loose : Bool} {t : Token} {ts : List Token} {b : Camlet.Binding} {d : Node} :
    t.isA .keyword "let" → Binding L loose ts b → Declares t.pos b d → Declaration (t :: ts) d
  | letIn {loose : Bool} {t : Token} {ts : List Token} {e : Node} :
    t.isA .keyword "let" → LetIn L t.pos loose ts e → Declaration (t :: ts) (.exprStmt t.pos e)
  | expression {loose : Bool} {t : Token} {ts : List Token} {e : Node} :
    L .expression loose (t :: ts) e → Declaration (t :: ts) (.exprStmt t.pos e)

/-- The separators `";;"*`. -/
def Separators (ts : List Token) : Prop := ∀ t ∈ ts, t.isA .delimiter ";;"

/-- Declarations, `(declaration ";;"*)*`: each is followed by a `;;`, by a `let` or by nothing. -/
inductive Declarations : List Token → List Node → Prop
  | nil : Declarations [] []
  | cons {ts seps rest : List Token} {d : Node} {ds : List Node} :
    Declaration L ts d → Separators seps →
    (seps ≠ [] ∨ ∀ t ∈ rest.head?, t.isA .keyword "let") → Declarations rest ds →
    Declarations (ts ++ seps ++ rest) (d :: ds)

/-- A program: declarations, perhaps behind separators. -/
inductive Program : List Token → List Node → Prop
  | mk {seps ts : List Token} {ds : List Node} :
    Separators seps → Declarations L ts ds → Program (seps ++ ts) ds

end Phrase

/-! ## The trees of derivations, and those that are built -/

namespace Phrase

theorem curried_curry (pos : Pos) (body : Node) (ps : List String) : Curried pos body ps (.curry pos ps body) := by
  induction ps with
  | nil => exact .body
  | cons p ps ih => exact .param ih

theorem Curried.eq_curry {pos : Pos} {body e : Node} {ps : List String} (h : Curried pos body ps e) :
    e = .curry pos ps body := by
  induction h with
  | body => rfl
  | param _ ih =>
    rw [ih]
    rfl

theorem Uncurried.uncurry_eq {v e : Node} {ps : List String} (h : Uncurried v ps e) : v.uncurry = (ps, e) := by
  induction h with
  | @body e h =>
    cases e with
    | lambda pos p b => exact absurd rfl (h pos p b)
    | _ => rfl
  | param _ ih => rw [Node.uncurry, ih]

theorem uncurried_uncurry : ∀ v : Node, Uncurried v v.uncurry.1 v.uncurry.2
  | .lambda _ _ b => .param (uncurried_uncurry b)
  | .wildcard .. | .bind .. | .program .. | .letDecl .. | .funDecl .. | .exprStmt .. | .letIn .. | .cond ..
  | .matching .. | .apply .. | .binary .. | .unary .. | .intLit .. | .floatLit .. | .stringLit ..
  | .charLit .. | .ident .. => .body nofun

theorem declares_iff {pos : Pos} {b : Camlet.Binding} {d : Node} :
    Declares pos b d ↔ d = Grammar.declarationOf pos b := by
  constructor
  · intro h
    cases h with
    | function | value => rfl
    | recursive h => simp [Grammar.declarationOf, h.uncurry_eq]
  · rintro rfl
    obtain ⟨r, f, ps, v⟩ := b
    cases ps with
    | cons => exact .function
    | nil =>
      cases r with
      | false => exact .value
      | true => exact .recursive (uncurried_uncurry v)

theorem operator_iff {operators : List String} {t : Token} {name : String} :
    Operator operators t name ↔ Grammar.isOperator operators t = true ∧ name = operatorName t.lexeme := by
  simp only [Grammar.isOperator, Bool.and_eq_true, Bool.or_eq_true, beq_iff_eq, List.contains_iff_mem]
  constructor
  · rintro ⟨hkind, hmem, rfl⟩
    exact ⟨⟨hkind, hmem⟩, rfl⟩
  · rintro ⟨⟨hkind, hmem⟩, rfl⟩
    exact ⟨hkind, hmem, rfl⟩

end Phrase

theorem Node.isLambda_iff {e : Node} : e.isLambda = true ↔ ∃ pos p b, e = .lambda pos p b := by
  cases e <;> simp [Node.isLambda]

/-! ## First tokens and loose ends -/

/-- The signs that may stand in front of an application. -/
def isSign (t : Token) : Bool := t.isA .operator "-" || t.isA .operator "-."

/-- The tokens with which a phrase of a rule may start. -/
def Nonterminal.opens : Nonterminal → Token → Bool
  | .primary, t | .application, t => Grammar.startsPrimary t
  | .unary, t | .level _, t => Grammar.startsPrimary t || isSign t
  | .expression, t | .bound, t =>
    Grammar.startsPrimary t || isSign t || t.isA .keyword "let" || t.isA .keyword "if" ||
      t.isA .keyword "fun" || t.isA .keyword "match"

/-- Every phrase starts with a token that opens its rule. -/
def Opening (nt : Nonterminal) (L : Language Node) : Prop :=
  ∀ loose ts e, L loose ts e → ∃ t us, ts = t :: us ∧ nt.opens t = true

/-- No phrase is loose. -/
def Tight (L : Language Node) : Prop := ∀ loose ts e, L loose ts e → loose = false

namespace Phrase

theorem Primary.opening {L : Nonterminal → Language Node} : Opening .primary (Primary L) := by
  intro loose ts e h
  cases h with
  | int hk | float hk | string hk | char hk | ident hk | backtick hk =>
    exact ⟨_, _, rfl, by simp [Nonterminal.opens, Grammar.startsPrimary, hk]⟩
  | bracketed ho =>
    refine ⟨_, _, rfl, ?_⟩
    simp only [Token.isA, Bool.and_eq_true, beq_iff_eq] at ho
    simp [Nonterminal.opens, Grammar.startsPrimary, Token.isA, ho.1, ho.2]

theorem Application.opening {primary : Language Node} (h : Opening .primary primary) :
    Opening .application (Application primary) := by
  intro loose ts e ha
  induction ha with
  | callee hp => exact h _ _ _ hp
  | argument _ _ ih =>
    obtain ⟨t, us, rfl, ht⟩ := ih
    exact ⟨t, _, rfl, ht⟩

theorem Unary.opening {L : Nonterminal → Language Node} (h : Opening .application (L .application)) :
    Opening .unary (Unary L) := by
  intro loose ts e hu
  cases hu with
  | sign ht => exact ⟨_, _, rfl, by simpa [Nonterminal.opens, isSign] using .inr ht⟩
  | application ha =>
    obtain ⟨t, us, rfl, ht⟩ := h _ _ _ ha
    exact ⟨t, us, rfl, by simp only [Nonterminal.opens] at ht; simp [Nonterminal.opens, ht]⟩

theorem Level.opening {operators : List String} {levels : List (List String)} {operand : Language Node}
    (h : Opening (.level levels) operand) : Opening (.level levels) (Level operators operand) := by
  intro loose ts e hl
  induction hl with
  | operand ho => exact h _ _ _ ho
  | binary _ _ _ ih =>
    obtain ⟨t, us, rfl, ht⟩ := ih
    exact ⟨t, _, rfl, ht⟩

theorem Expression.opening {L : Nonterminal → Language Node}
    (h : Opening (.level operatorLevels) (L (.level operatorLevels))) :
    Opening .expression (Expression L) := by
  intro loose ts e he
  cases he with
  | letIn ht | cond ht | lambda ht | matching ht =>
    exact ⟨_, _, rfl, by simp [Nonterminal.opens, ht]⟩
  | level hl =>
    obtain ⟨t, us, rfl, ht⟩ := h _ _ _ hl
    exact ⟨t, us, rfl, by simp only [Nonterminal.opens] at ht; simp [Nonterminal.opens, ht]⟩

end Phrase

theorem derives_opening (n : Nat) (nt : Nonterminal) : Opening nt (Derives n nt) := by
  induction n generalizing nt with
  | zero => exact fun _ _ _ h => h.elim
  | succ n ih =>
    match nt with
    | .expression => exact Phrase.Expression.opening (ih _)
    | .bound => exact ih .expression
    | .level [] => exact ih .unary
    | .level (_ :: tighter) => exact Phrase.Level.opening (ih (.level tighter))
    | .unary => exact Phrase.Unary.opening (ih _)
    | .application => exact Phrase.Application.opening (ih _)
    | .primary => exact Phrase.Primary.opening

/-- The rules whose phrases end in a primary expression. -/
def Nonterminal.Closed : Nonterminal → Prop
  | .expression | .bound => False
  | .level _ | .unary | .application | .primary => True

/-- No phrase of these rules is loose. -/
theorem derives_tight (n : Nat) {nt : Nonterminal} (hnt : nt.Closed) : Tight (Derives n nt) := by
  induction n generalizing nt with
  | zero => exact fun _ _ _ h => h.elim
  | succ n ih =>
    match nt, hnt with
    | .level [], _ =>
      have hunary : Nonterminal.unary.Closed := trivial
      exact ih hunary
    | .level (_ :: _), _ => intro loose ts e h; cases h <;> rfl
    | .unary, _ => intro loose ts e h; cases h <;> rfl
    | .application, _ => intro loose ts e h; cases h <;> rfl
    | .primary, _ => intro loose ts e h; cases h <;> rfl

end Camlet
