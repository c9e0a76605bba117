import Camlet.Proofs.Stateful
import Camlet.Tree.Parser

/-
  The budget of nesting only decides whether tokens are read to the end. What a rule reads within a
  budget it reads within any larger one, and it stops in the same way at the same place, unless it
  stopped for the nesting itself.
-/

namespace Camlet

open Stateful

/-- `y` does what `x` does, unless `x` stops for the depth of nesting. -/
abbrev Extends {α : Type} (x y : Parser α) : Prop := ExtendsPast (· = .tooDeep) x y

/-! ## One lemma for each rule -/

section Rules

variable {sub sub' : Nonterminal → Parser Node} (h : ∀ nt, Extends (sub nt) (sub' nt))

include h

theorem extends_binding : Extends (Grammar.binding sub) (Grammar.binding sub') := by
  refine .bind_right fun recursive => .bind_right fun ts => ?_
  cases ts with
  | nil => exact .refl _
  | cons name ts =>
    refine .ite (.bind_right fun _ => .bind_right fun ps => .bind_right fun _ => ?_) (.refl _)
    exact .bind_left (h _)

theorem extends_letIn (pos : Pos) : Extends (Grammar.letIn sub pos) (Grammar.letIn sub' pos) :=
  .bind (extends_binding h) fun _ => .bind_right fun _ => .bind_left (h _)

theorem extends_cond (pos : Pos) : Extends (Grammar.cond sub pos) (Grammar.cond sub' pos) :=
  .bind (h _) fun _ => .bind_right fun _ => .bind (h _) fun _ => .bind_right fun _ => .bind_left (h _)

theorem extends_lambda (pos : Pos) : Extends (Grammar.lambda sub pos) (Grammar.lambda sub' pos) := by
  refine .bind_right fun ps => ?_
  have htail : Extends
      (Parser.expect .operator "->" .arrowAfterParams >>= fun _ => sub .expression >>= fun e =>
        pure (Node.curry pos ps e))
      (Parser.expect .operator "->" .arrowAfterParams >>= fun _ => sub' .expression >>= fun e =>
        pure (Node.curry pos ps e)) := .bind_right fun _ => .bind_left (h _)
  exact .ite (.bind_right fun _ => htail) htail

theorem extends_case : Extends (Grammar.case sub) (Grammar.case sub') :=
  .bind_right fun _ => .bind_right fun _ => .bind_right fun _ => .bind_left (h _)

theorem extends_cases (bound : List Token) :
    Extends (Grammar.cases sub bound) (Grammar.cases sub' bound) := by
  induction bound with
  | nil => exact .refl _
  | cons b bound ih =>
    refine .bind_right fun ts => ?_
    cases ts with
    | nil => exact .refl _
    | cons t ts => exact .ite (.bind (extends_case h) fun _ => .bind_left ih) (.refl _)

theorem extends_matching (pos : Pos) : Extends (Grammar.matching sub pos) (Grammar.matching sub' pos) :=
  .bind (h _) fun _ => .bind_right fun _ => .bind (extends_case h) fun _ => .bind_right fun _ =>
    .bind_left (extends_cases h _)

theorem extends_expression : Extends (Grammar.expression sub) (Grammar.expression sub') := by
  refine .bind_right fun ts => ?_
  cases ts with
  | nil => exact h _
  | cons t ts =>
    exact .ite (.bind_right fun _ => extends_letIn h _) <|
      .ite (.bind_right fun _ => extends_cond h _) <|
      .ite (.bind_right fun _ => extends_lambda h _) <|
      .ite (.bind_right fun _ => extends_matching h _) (h _)

theorem extends_unary : Extends (Grammar.unary sub) (Grammar.unary sub') := by
  refine .bind_right fun ts => ?_
  cases ts with
  | nil => exact h _
  | cons t ts => exact .ite (.bind_right fun _ => .bind_left (h _)) (h _)

theorem extends_primary : Extends (Grammar.primary sub) (Grammar.primary sub') := by
  refine .bind_right fun ts => ?_
  cases ts with
  | nil => exact .refl _
  | cons t ts =>
    dsimp only
    generalize Grammar.atom? t = a
    rcases a with _ | _ | _
    · exact .ite (.bind_right fun _ => .bind_left (h _)) (.refl _)
    · exact .refl _
    · exact .refl _

theorem extends_letDeclaration (pos : Pos) :
    Extends (Grammar.letDeclaration sub pos) (Grammar.letDeclaration sub' pos) :=
  .bind (extends_binding h) fun _ => .bind_right fun _ => .ite (.bind_left (h _)) (.refl _)

theorem extends_declaration : Extends (Grammar.declaration sub) (Grammar.declaration sub') := by
  refine .bind_right fun ts => ?_
  cases ts with
  | nil => exact .refl _
  | cons t ts =>
    exact .ite (.bind_right fun _ => extends_letDeclaration h _) (.bind_left (h _))

end Rules

theorem extends_chain {operators : List String} {operand operand' : Parser Node}
    (h : Extends operand operand') (bound : List Token) (e : Node) :
    Extends (Grammar.chain operators operand bound e) (Grammar.chain operators operand' bound e) := by
  induction bound generalizing e with
  | nil => exact .refl _
  | cons b bound ih =>
    refine .bind_right fun ts => ?_
    cases ts with
    | nil => exact .refl _
    | cons t ts => exact .ite (.bind_right fun _ => .bind h fun _ => ih _) (.refl _)

theorem extends_arguments {primary primary' : Parser Node} (h : Extends primary primary')
    (bound : List Token) (e : Node) :
    Extends (Grammar.arguments primary bound e) (Grammar.arguments primary' bound e) := by
  induction bound generalizing e with
  | nil => exact .refl _
  | cons b bound ih =>
    refine .bind_right fun ts => ?_
    cases ts with
    | nil => exact .refl _
    | cons t ts => exact .ite (.bind h fun _ => ih _) (.refl _)

/-- One level more of the budget only makes a rule go on where it stopped for the nesting. -/
theorem extends_parse_succ (budget : Nat) (nt : Nonterminal) :
    Extends (nt.parse budget) (nt.parse (budget + 1)) := by
  induction budget generalizing nt with
  | zero => exact fun ts => .inr ⟨_, ts, rfl, rfl⟩
  | succ n ih =>
    match nt with
    | .expression => exact extends_expression ih
    | .bound => exact ih .expression
    | .level [] => exact ih .unary
    | .level (operators :: tighter) =>
      exact .bind (ih (.level tighter)) fun l => .bind_right fun ts =>
        extends_chain (ih (.level tighter)) ts l
    | .unary => exact extends_unary ih
    | .application =>
      exact .bind (ih .primary) fun f => .bind_right fun ts => extends_arguments (ih .primary) ts f
    | .primary => exact extends_primary ih

theorem extends_parse {budget larger : Nat} (h : budget ≤ larger) (nt : Nonterminal) :
    Extends (nt.parse budget) (nt.parse larger) := by
  induction h with
  | refl => exact .refl _
  | step _ ih => exact ih.trans (extends_parse_succ _ nt)

end Camlet
