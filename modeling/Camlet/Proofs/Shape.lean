import Camlet.Proofs.Printing
import Camlet.Proofs.Programs
import Camlet.Session.Pipeline

/-
  The shape of trees that were read. Declarations stand at the top only, patterns in cases only, every
  function declaration has parameters, what a local recursive binding binds is a function, and binary
  operators are those of the grammar. Analysis and evaluation are given such trees by every run.
-/

namespace Camlet

/-- The binary operators of trees. -/
def operatorNames : List String := operatorLevels.flatten.map operatorName

/-- Every one of them has a rule in the analysis and in the evaluation. -/
theorem operatorNames_known : ∀ o ∈ operatorNames,
    o ∈ logicalOperators ∨ o ∈ floatOperators ∨ o ∈ comparisonOperators ∨ o ∈ arithmeticOperators := by
  decide

/-- A pattern. -/
inductive IsPattern : Node → Prop
  | wildcard (pos : Pos) : IsPattern (.wildcard pos)
  | bind (pos : Pos) (x : String) : x ≠ "_" → IsPattern (.bind pos x)

/-- An expression. -/
inductive IsExpression : Node → Prop
  | letIn (pos : Pos) (x : String) {v b : Node} {r : Bool} :
    IsExpression v → (r = true → v.isLambda = true) → IsExpression b → IsExpression (.letIn pos x v b r)
  | cond (pos : Pos) {c t e : Node} :
    IsExpression c → IsExpression t → IsExpression e → IsExpression (.cond pos c t e)
  | matching (pos : Pos) {s : Node} {cs : List (Node × Node)} :
    IsExpression s → cs ≠ [] → (∀ c ∈ cs, IsPattern c.1) → (∀ c ∈ cs, IsExpression c.2) →
    IsExpression (.matching pos s cs)
  | lambda (pos : Pos) (p : String) {b : Node} : IsExpression b → IsExpression (.lambda pos p b)
  | apply (pos : Pos) {f a : Node} : IsExpression f → IsExpression a → IsExpression (.apply pos f a)
  | binary (pos : Pos) (o : String) {l r : Node} :
    IsExpression l → IsExpression r → o ∈ operatorNames → IsExpression (.binary pos o l r)
  | unary (pos : Pos) (o : String) {e : Node} : IsExpression e → IsExpression (.unary pos o e)
  | intLit (pos : Pos) (n : Int) : IsExpression (.intLit pos n)
  | floatLit (pos : Pos) (x : Float) : IsExpression (.floatLit pos x)
  | stringLit (pos : Pos) (s : String) : IsExpression (.stringLit pos s)
  | charLit (pos : Pos) (s : String) : IsExpression (.charLit pos s)
  | ident (pos : Pos) (x : String) : IsExpression (.ident pos x)

/-- A declaration. -/
inductive IsDeclaration : Node → Prop
  | letDecl (pos : Pos) (x : String) {v : Node} : IsExpression v → IsDeclaration (.letDecl pos x v)
  | funDecl (pos : Pos) (f p : String) (ps : List String) {b : Node} (r : Bool) :
    IsExpression b → IsDeclaration (.funDecl pos f (p :: ps) b r)
  | exprStmt (pos : Pos) {e : Node} : IsExpression e → IsDeclaration (.exprStmt pos e)

theorem IsExpression.height_pos {e : Node} (h : IsExpression e) : 0 < e.height := by
  cases h <;> simp [Node.height]

theorem IsExpression.curry (pos : Pos) (ps : List String) {b : Node} (h : IsExpression b) :
    IsExpression (.curry pos ps b) := by
  induction ps with
  | nil => exact h
  | cons p ps ih => exact .lambda pos p ih

/-! ## Derived trees -/

/-- The levels of a rule are of operators of the grammar. -/
def Nonterminal.Known : Nonterminal → Prop
  | .level levels => ∀ s ∈ levels.flatten, operatorName s ∈ operatorNames
  | _ => True

/-- What every rule of known operators derives is an expression. -/
def Shaped (L : Nonterminal → Language Node) : Prop :=
  ∀ nt, nt.Known → ∀ loose ts e, L nt loose ts e → IsExpression e

theorem known_operatorLevels : (Nonterminal.level operatorLevels).Known :=
  fun _ hs => List.mem_map_of_mem hs

namespace Phrase

theorem Curried.isExpression {pos : Pos} {body e : Node} {ps : List String} (h : Curried pos body ps e)
    (hbody : IsExpression body) : IsExpression e :=
  h.eq_curry ▸ hbody.curry pos ps

theorem Uncurried.isExpression {v e : Node} {ps : List String} (h : Uncurried v ps e)
    (hv : IsExpression v) : IsExpression e := by
  induction h with
  | body => exact hv
  | param _ ih =>
    cases hv with
    | lambda _ _ hb => exact ih hb

variable {L : Nonterminal → Language Node} (h : Shaped L)

include h

theorem Binding.value_isExpression {loose : Bool} {ts : List Token} {b : Camlet.Binding}
    (hb : Binding L loose ts b) : IsExpression b.value := by
  cases hb with
  | plain _ _ _ hv => exact h .bound trivial _ _ _ hv
  | recursive _ _ _ _ hv => exact h .bound trivial _ _ _ hv

omit h in
/-- What a recursive binding binds is a function, by its parameters or by itself. -/
theorem Binding.isLambda {loose : Bool} {ts : List Token} {b : Camlet.Binding} {pos : Pos} {v : Node}
    (hb : Binding L loose ts b) (hr : b.recursive = true) (hv : Curried pos b.value b.params v) :
    v.isLambda = true := by
  cases hb with
  | plain => cases hr
  | @recursive _ _ _ _ ps _ _ _ _ _ _ _ hlam =>
    cases ps with
    | nil =>
      cases hv
      exact Node.isLambda_iff.mpr (hlam rfl)
    | cons =>
      cases hv
      rfl

theorem Declares.isDeclaration {pos : Pos} {loose : Bool} {ts : List Token} {b : Camlet.Binding} {d : Node}
    (hd : Declares pos b d) (hb : Binding L loose ts b) : IsDeclaration d := by
  have hv := hb.value_isExpression h
  cases hd with
  | function => exact .funDecl pos _ _ _ _ hv
  | value => exact .letDecl pos _ hv
  | @recursive f v e ps hu =>
    have hbound : Curried pos v [] v := .body
    have hlam := hb.isLambda rfl hbound
    cases hu with
    | body hnot =>
      obtain ⟨q, p, b, rfl⟩ := Node.isLambda_iff.mp hlam
      exact absurd rfl (hnot q p b)
    | param hu =>
      cases hv with
      | lambda _ _ hb => exact .funDecl pos _ _ _ true (hu.isExpression hb)

theorem LetIn.isExpression {pos : Pos} {loose : Bool} {ts : List Token} {e : Node}
    (hl : LetIn L pos loose ts e) : IsExpression e := by
  cases hl with
  | mk hb _ he hv =>
    exact .letIn pos _ (hv.isExpression (hb.value_isExpression h)) (fun hr => hb.isLambda hr hv)
      (h .expression trivial _ _ _ he)

theorem Case.isExpression {loose : Bool} {ts : List Token} {c : Node × Node} (hc : Case L loose ts c) :
    IsPattern c.1 ∧ IsExpression c.2 := by
  cases hc with
  | mk _ hp _ he =>
    refine ⟨?_, h .expression trivial _ _ _ he⟩
    cases hp with
    | wildcard => exact .wildcard _
    | bind _ hne => exact .bind _ _ hne

theorem Cases.isExpression {ts : List Token} {cs : List (Node × Node)} (hcs : Cases L ts cs) :
    ∀ c ∈ cs, IsPattern c.1 ∧ IsExpression c.2 := by
  induction hcs with
  | last hc =>
    intro c hmem
    rw [List.mem_singleton.mp hmem]
    exact hc.isExpression h
  | more hc _ ih =>
    intro c hmem
    rcases List.mem_cons.mp hmem with rfl | hmem
    · exact hc.isExpression h
    · exact ih c hmem

theorem Expression.isExpression {loose : Bool} {ts : List Token} {e : Node}
    (he : Expression L loose ts e) : IsExpression e := by
  cases he with
  | letIn _ he => exact he.isExpression h
  | cond _ he =>
    cases he with
    | mk hc _ ht _ he =>
      exact .cond _ (h .expression trivial _ _ _ hc) (h .expression trivial _ _ _ ht)
        (h .expression trivial _ _ _ he)
  | lambda _ he =>
    cases he with
    | mk _ _ _ he hcurried => exact hcurried.isExpression (h .expression trivial _ _ _ he)
  | matching _ he =>
    cases he with
    | mk hs _ hcs =>
      have hall := hcs.isExpression h
      exact .matching _ (h .expression trivial _ _ _ hs) (by cases hcs <;> exact List.cons_ne_nil _ _)
        (fun c hc => (hall c hc).1) fun c hc => (hall c hc).2
  | level he => exact h _ known_operatorLevels _ _ _ he

omit h in
theorem Level.isExpression {operators : List String} {operand : Language Node}
    (h : ∀ loose ts e, operand loose ts e → IsExpression e)
    (ho : ∀ s ∈ operators, operatorName s ∈ operatorNames) {loose : Bool} {ts : List Token} {e : Node}
    (he : Level operators operand loose ts e) : IsExpression e := by
  induction he with
  | operand he => exact h _ _ _ he
  | binary _ ht hr ih =>
    obtain ⟨-, hmem, rfl⟩ := ht
    exact .binary _ _ ih (h _ _ _ hr) (ho _ hmem)

theorem Unary.isExpression {loose : Bool} {ts : List Token} {e : Node} (he : Unary L loose ts e) :
    IsExpression e := by
  cases he with
  | sign _ he => exact .unary _ _ (h .unary trivial _ _ _ he)
  | application he => exact h .application trivial _ _ _ he

omit h in
theorem Application.isExpression {primary : Language Node}
    (h : ∀ loose ts e, primary loose ts e → IsExpression e) {loose : Bool} {ts : List Token} {e : Node}
    (he : Application primary loose ts e) : IsExpression e := by
  induction he with
  | callee he => exact h _ _ _ he
  | argument _ ha ih => exact .apply _ ih (h _ _ _ ha)

theorem Primary.isExpression {loose : Bool} {ts : List Token} {e : Node} (he : Primary L loose ts e) :
    IsExpression e := by
  cases he with
  | int => exact .intLit _ _
  | float => exact .floatLit _ _
  | string => exact .stringLit _ _
  | char => exact .charLit _ _
  | ident | backtick => exact .ident _ _
  | bracketed _ he => exact h .expression trivial _ _ _ he

end Phrase

theorem shaped_derives (n : Nat) : Shaped (Derives n) := by
  induction n with
  | zero => exact fun _ _ _ _ _ h => h.elim
  | succ n ih =>
    intro nt hnt loose ts e h
    match nt with
    | .expression => exact Phrase.Expression.isExpression ih h
    | .bound => exact ih .expression trivial _ _ _ h
    | .level [] => exact ih .unary trivial _ _ _ h
    | .level (operators :: tighter) =>
      have htighter : (Nonterminal.level tighter).Known :=
        fun s hs => hnt s (List.mem_append_right operators hs)
      exact Phrase.Level.isExpression (ih _ htighter) (fun s hs => hnt s (List.mem_append_left _ hs)) h
    | .unary => exact Phrase.Unary.isExpression ih h
    | .application => exact Phrase.Application.isExpression (ih .primary trivial) h
    | .primary => exact Phrase.Primary.isExpression ih h

theorem Phrase.Declaration.isDeclaration {n : Nat} {ts : List Token} {d : Node}
    (h : Phrase.Declaration (Derives n) ts d) : IsDeclaration d := by
  cases h with
  | binding _ hb hd => exact hd.isDeclaration (shaped_derives n) hb
  | letIn _ h => exact .exprStmt _ (h.isExpression (shaped_derives n))
  | expression h => exact .exprStmt _ (shaped_derives n .expression trivial _ _ _ h)

/-- All that is read is declarations, also where something else fails. -/
theorem collect_isDeclaration {budget : Nat} {stop : Pos} {fuel : Nat} {ts : List Token} :
    ∀ d ∈ (Parsed.collect budget stop fuel ts).1, IsDeclaration d := by
  induction fuel generalizing ts with
  | zero => cases ts <;> nofun
  | succ fuel ih =>
    cases ts with
    | nil => nofun
    | cons t ts =>
      rw [Parsed.collect]
      split
      · exact ih
      · split
        next d rest hd =>
          obtain ⟨us, seps, -, hdecl, -⟩ := declaration_phrase hd
          intro c hc
          rcases List.mem_cons.mp hc with rfl | hc
          · exact hdecl.isDeclaration
          · exact ih c hc
        · exact ih

theorem parse_isDeclaration {source : String} {p : Program} (h : (parse source).program = some p) :
    ∀ d ∈ p.body, IsDeclaration d := by
  obtain ⟨d, -, rfl⟩ := Option.map_eq_some_iff.mp h
  exact collect_isDeclaration

end Camlet
