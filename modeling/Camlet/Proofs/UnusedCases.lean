import Camlet.Proofs.Runs
import Camlet.Proofs.Surroundings

/-
  Warnings about cases that are never used. Every pattern matches all values, so of the cases of a case
  distinction only the first is ever chosen, and the analysis warns of each of the others, at its pattern. An
  analysis without faults goes through every node once, also through the bodies of those cases, so the warnings
  are one for each case behind a first one, in the order in which the analysis comes to them.

  `Check.Warns` says which warnings a step adds if it goes well. It is closed under composition, there is one lemma
  for each rule, and the declarations of a program follow one by one.
-/

namespace Camlet

open Stateful

/-- A case of a case distinction behind the first one, given by the pattern of that one and its own pattern
and body. -/
structure LaterCase where
  first : Node
  pattern : Node
  body : Node

/-- What is said of a case that is never used: it stands behind one that matches everything. -/
def LaterCase.warning (c : LaterCase) : Located Warning := ⟨c.pattern.pos, .unusedCase c.first.pos.line⟩

namespace Node

mutual

/-- All cases in a tree that stand behind the first of their case distinction, in order. -/
def laterCases : Node → List LaterCase
  | wildcard _ | bind .. | intLit .. | floatLit .. | stringLit .. | charLit .. | ident .. => []
  | program _ ds => laterCasesList ds
  | letDecl _ _ v => v.laterCases
  | funDecl _ _ _ b _ => b.laterCases
  | exprStmt _ e => e.laterCases
  | letIn _ _ v b _ => v.laterCases ++ b.laterCases
  | cond _ c t e => c.laterCases ++ t.laterCases ++ e.laterCases
  | matching _ s cs => s.laterCases ++ laterCasesBehind none cs
  | lambda _ _ b => b.laterCases
  | apply _ f a => f.laterCases ++ a.laterCases
  | binary _ _ l r => l.laterCases ++ r.laterCases
  | unary _ _ e => e.laterCases

/-- Those in a list of trees. -/
def laterCasesList : List Node → List LaterCase
  | [] => []
  | d :: ds => d.laterCases ++ laterCasesList ds

/-- Those among the cases of one case distinction and in their bodies, where `first` is the pattern of its
first case, if that was passed. -/
def laterCasesBehind (first : Option Node) : List (Node × Node) → List LaterCase
  | [] => []
  | (p, e) :: cs =>
    first.toList.map (fun q => ⟨q, p, e⟩) ++ e.laterCases ++ laterCasesBehind (first <|> some p) cs

end

/-- The warnings about the cases in a tree that are never used. -/
def caseWarnings (n : Node) : List (Located Warning) := n.laterCases.map LaterCase.warning

end Node

namespace Check

variable {α β : Type} {ws ws' : List (Located Warning)} {x : Check α} {k : α → Check β} {pos : Pos}

/-- If the step goes well, it adds these warnings. -/
def Warns (x : Check α) (ws : List (Located Warning)) : Prop :=
  ∀ c a c', x c = .ok a c' → c'.warnings = ws.reverse ++ c.warnings

theorem warns_pure (a : α) : Warns (pure a) [] := by
  intro c b c' h
  cases h
  rfl

/-- Nothing is asked of a step that stops. -/
theorem warns_throw (r : Refusal) : Warns (throw r : Check α) ws := by
  intro c a c' h
  cases h

theorem warns_refuse (f : TypeFault) : Warns (refuse pos f : Check α) ws := warns_throw _

theorem Warns.bind (hx : Warns x ws) (hk : ∀ a, Warns (k a) ws') : Warns (x >>= k) (ws ++ ws') := by
  intro c b c' h
  obtain ⟨a, c₁, hrun, hrest⟩ := bind_eq_ok.mp h
  calc c'.warnings
    _ = ws'.reverse ++ c₁.warnings := hk a c₁ b c' hrest
    _ = ws'.reverse ++ (ws.reverse ++ c.warnings) := by rw [hx c a c₁ hrun]
    _ = (ws ++ ws').reverse ++ c.warnings := by rw [List.reverse_append, List.append_assoc]

/-- A step that adds none in front of one that does. -/
theorem Warns.before (hx : Warns x []) (hk : ∀ a, Warns (k a) ws) : Warns (x >>= k) ws := hx.bind hk

/-- A step that adds none behind one that does. -/
theorem Warns.after (hx : Warns x ws) (hk : ∀ a, Warns (k a) []) : Warns (x >>= k) ws := by
  have h := hx.bind hk
  rwa [List.append_nil] at h

theorem Warns.ite {p : Prop} [Decidable p] {y : Check α} (hx : Warns x ws) (hy : Warns y ws) :
    Warns (if p then x else y) ws := by
  split
  · exact hx
  · exact hy

/-- A step that only goes on if a test is passed. -/
theorem Warns.guarded {p : Bool} {f : TypeFault} {l : Unit → Check α} (hx : Warns x ws) :
    Warns (if p = true then x else refuse pos f >>= l) ws := by
  refine hx.ite ?_
  intro c a c' h
  cases h

theorem Warns.within (hx : Warns x ws) (frame : Frame) : Warns (within frame x) ws := by
  intro c a c' h
  rw [Check.within] at h
  cases hrun : x { c with scopes := frame :: c.scopes } with
  | ok b c₁ =>
    rw [hrun] at h
    cases h
    exact hx { c with scopes := frame :: c.scopes } a c₁ hrun
  | error r c₁ =>
    rw [hrun] at h
    cases h

theorem warns_declare (x : String) (t : Typing) : Warns (declare pos x t) [] := by
  intro c a c' h
  rw [declare, get_bind] at h
  cases hdeclare : c.scopes.declare x t with
  | ok s =>
    rw [hdeclare] at h
    cases h
    rfl
  | error f =>
    rw [hdeclare] at h
    cases h

theorem warns_assign (x : String) (t : Typing) : Warns (assign x t) [] := by
  intro c a c' h
  cases h
  rfl

theorem warns_lookup (x : String) : Warns (lookup pos x) [] := by
  intro c a c' h
  rw [lookup, get_bind] at h
  cases hlookup : c.scopes.lookup x with
  | ok t =>
    rw [hlookup] at h
    cases h
    rfl
  | error f =>
    rw [hlookup] at h
    cases h

theorem warns_warn (w : Warning) : Warns (warn pos w) [⟨pos, w⟩] := by
  intro c a c' h
  cases h
  rfl

end Check

/-! ## One lemma for each rule -/

namespace Infer

open Check

variable {sub : Node → Check Typing} {pos : Pos} {ws ws' ws'' : List (Located Warning)}

theorem warns_params (ps : List String) : Warns (params pos ps) [] := by
  induction ps with
  | nil => exact warns_pure ()
  | cons p ps ih => exact (warns_declare p _).before fun _ => ih

theorem warns_letDecl (x : String) {v : Node} (hv : Warns (sub v) ws) : Warns (letDecl sub pos x v) ws :=
  hv.after fun t => (warns_declare x t).before fun _ => warns_pure t

theorem warns_funDecl (x : String) (ps : List String) (r : Bool) {b : Node} (hb : Warns (sub b) ws) :
    Warns (funDecl sub pos x ps b r) ws := by
  have hbody : Warns (params pos ps >>= fun _ => sub b) ws := (warns_params ps).before fun _ => hb
  exact ((hbody.within []).within _).after fun _ => (warns_declare x _).before fun _ => warns_pure _

theorem warns_letIn (x : String) (r : Bool) {v b : Node} (hv : Warns (sub v) ws) (hb : Warns (sub b) ws') :
    Warns (letIn sub pos x v b r) (ws ++ ws') := by
  refine Warns.within ?_ []
  cases r with
  | false => exact hv.bind fun t => (warns_declare x t).before fun _ => hb
  | true =>
    refine (warns_declare x _).before fun _ => hv.bind fun t => ?_
    exact (warns_assign x t).before fun _ => hb

theorem warns_cond {n m k : Node} (hn : Warns (sub n) ws) (hm : Warns (sub m) ws') (hk : Warns (sub k) ws'') :
    Warns (Infer.cond sub pos n m k) (ws ++ ws' ++ ws'') := by
  rw [List.append_assoc]
  have hbranches : Warns (sub m >>= fun t => sub k >>= fun e =>
      if t.compatible e = true then pure (t.unify e)
      else refuse pos (.branches t.name e.name) >>= fun _ => pure (t.unify e)) (ws' ++ ws'') :=
    hm.bind fun _ => hk.after fun _ => (warns_pure _).guarded
  exact hn.bind fun _ => hbranches.guarded

theorem warns_case {first : Option Node} {before : Typing} {p e : Node} {cs : List (Node × Node)}
    (he : Warns (sub e) ws)
    (hcs : ∀ before, Warns (cases sub before (first <|> if p.matchesAll then some p else none) cs) ws') :
    Warns (caseAndRest sub before first p e cs) (ws ++ ws') := by
  refine (Warns.within ?_ []).bind fun t => ?_
  · cases p with
    | bind q x => exact (warns_declare x _).before fun _ => he
    | _ => exact he
  · exact Warns.ite ((warns_refuse _).before fun _ => hcs _) (hcs _)

theorem warns_cases {before : Typing} {first : Option Node} {cs : List (Node × Node)}
    (h : ∀ c ∈ cs, IsPattern c.1 ∧ Warns (sub c.2) c.2.caseWarnings) :
    Warns (cases sub before first cs) ((Node.laterCasesBehind first cs).map LaterCase.warning) := by
  induction cs generalizing before first with
  | nil => exact warns_pure before
  | cons c cs ih =>
    obtain ⟨p, e⟩ := c
    obtain ⟨⟨hp, he⟩, hcs⟩ := List.forall_mem_cons.mp h
    have hall : p.matchesAll = true := by cases hp <;> rfl
    have hrest : Warns (caseAndRest sub before first p e cs)
        (e.caseWarnings ++ (Node.laterCasesBehind (first <|> some p) cs).map LaterCase.warning) :=
      warns_case he fun before => by
        rw [hall]
        exact ih hcs
    rw [Node.laterCasesBehind, List.map_append, List.map_append, List.append_assoc]
    cases first with
    | none => exact hrest
    | some q => exact (warns_warn _).bind fun _ => hrest

theorem warns_matching {s : Node} {cs : List (Node × Node)} (hs : Warns (sub s) ws)
    (h : ∀ c ∈ cs, IsPattern c.1 ∧ Warns (sub c.2) c.2.caseWarnings) :
    Warns (matching sub s cs) (ws ++ (Node.laterCasesBehind none cs).map LaterCase.warning) :=
  hs.bind fun _ => warns_cases h

theorem warns_lambda (x : String) {b : Node} (hb : Warns (sub b) ws) : Warns (lambda sub pos x b) ws :=
  ((warns_declare x _).before fun _ => hb.after fun _ => warns_pure _).within []

theorem warns_apply {g a : Node} (hg : Warns (sub g) ws) (ha : Warns (sub a) ws') :
    Warns (apply sub pos g a) (ws ++ ws') := by
  refine hg.bind fun t => ha.after fun _ => ?_
  cases t with
  | none => exact warns_throw _
  | some t => exact (warns_pure _).ite ((warns_pure _).ite (warns_refuse _))

theorem warns_operand (fits : Typing → Bool) (fault : String → String → TypeFault) (n : Node) (t : Typing) :
    Warns (operand fits fault n t) [] :=
  (warns_pure _).ite (warns_refuse _)

theorem warns_binary (o : String) {l r : Node} (hl : Warns (sub l) ws) (hr : Warns (sub r) ws') :
    Warns (binary sub pos o l r) (ws ++ ws') := by
  have hoperands : ∀ fits fault tl tr {x : Check Typing}, Warns x [] →
      Warns (operand fits fault l tl >>= fun _ => operand fits fault r tr >>= fun _ => x) [] :=
    fun fits fault tl tr _ hx => (warns_operand fits fault l tl).before fun _ =>
      (warns_operand fits fault r tr).before fun _ => hx
  refine hl.bind fun tl => hr.after fun tr => Warns.ite (hoperands _ _ _ _ (warns_pure _)) ?_
  refine Warns.ite (hoperands _ _ _ _ (warns_pure _)) (hoperands _ _ _ _ (Warns.guarded ?_))
  exact (warns_pure _).ite ((warns_pure _).ite (warns_refuse _))

theorem warns_unary (o : String) {e : Node} (he : Warns (sub e) ws) : Warns (unary sub pos o e) ws :=
  he.after fun _ => Warns.ite (warns_pure _).guarded (warns_pure _).guarded

end Infer

open Infer in
/-- An expression that passes is warned of in all its later cases. -/
theorem infer_warns (depth : Nat) {e : Node} (he : IsExpression e) : (infer depth e).Warns e.caseWarnings := by
  induction depth generalizing e with
  | zero => exact Check.warns_throw _
  | succ depth ih =>
    unfold Node.caseWarnings
    cases he with
    | letIn pos x hv _ hb =>
      rw [Node.laterCases, List.map_append]
      exact warns_letIn x _ (ih hv) (ih hb)
    | cond pos hn hm hk =>
      rw [Node.laterCases, List.map_append, List.map_append]
      exact warns_cond (ih hn) (ih hm) (ih hk)
    | matching pos hs _ hp he =>
      rw [Node.laterCases, List.map_append]
      exact warns_matching (ih hs) fun c hc => ⟨hp c hc, ih (he c hc)⟩
    | lambda pos x hb => exact warns_lambda x (ih hb)
    | apply pos hg ha =>
      rw [Node.laterCases, List.map_append]
      exact warns_apply (ih hg) (ih ha)
    | binary pos o hl hr _ =>
      rw [Node.laterCases, List.map_append]
      exact warns_binary o (ih hl) (ih hr)
    | unary pos o he => exact warns_unary o (ih he)
    | intLit | floatLit | stringLit | charLit => exact Check.warns_pure _
    | ident pos x => exact Check.warns_lookup x

/-- And so is a declaration. -/
theorem infer_declaration_warns (depth : Nat) {d : Node} (hd : IsDeclaration d) :
    (infer depth d).Warns d.caseWarnings := by
  cases depth with
  | zero => exact Check.warns_throw _
  | succ depth =>
    cases hd with
    | letDecl pos x hv => exact Infer.warns_letDecl x (infer_warns depth hv)
    | funDecl pos x p ps r hb => exact Infer.warns_funDecl x (p :: ps) r (infer_warns depth hb)
    | exprStmt pos he => exact infer_warns depth he

/-- Declarations without a fault are warned of in all their later cases, in order. -/
theorem declarations_warn {depth : Nat} {c : Context} {ds : List Node} {bs : List (String × Typing)}
    {ws : List (Located Warning)} (hds : ∀ d ∈ ds, IsDeclaration d)
    (h : Analysis.declarations depth c ds = .ok (bs, [], ws)) :
    ws = (ds.flatMap Node.caseWarnings).reverse ++ c.warnings := by
  induction ds generalizing c bs with
  | nil =>
    cases h
    rfl
  | cons d ds ih =>
    obtain ⟨hd, hds⟩ := List.forall_mem_cons.mp hds
    obtain ⟨t, c', name, bs', hinfer, -, -, hrest⟩ := declarations_cons h
    calc ws
      _ = (ds.flatMap Node.caseWarnings).reverse ++ c'.warnings := ih hds hrest
      _ = (ds.flatMap Node.caseWarnings).reverse ++ (d.caseWarnings.reverse ++ c.warnings) := by
        rw [infer_declaration_warns depth hd c t c' hinfer]
      _ = ((d :: ds).flatMap Node.caseWarnings).reverse ++ c.warnings := by
        rw [List.flatMap_cons, List.reverse_append, List.append_assoc]

/-- The warnings of an analysis without faults are those about the later cases. -/
theorem analyze_warnings {body : List Node} {types : Frame} {a : Analysis} (hbody : ∀ d ∈ body, IsDeclaration d)
    (h : analyze body types = .ok a) (ha : a.errors = []) : a.warnings = body.flatMap Node.caseWarnings := by
  obtain ⟨⟨bs, fs, ws⟩, hdecls, heq⟩ := except_bind_eq_ok.mp h
  cases heq
  obtain rfl : fs = [] := ha
  rw [declarations_warn hbody hdecls, List.append_nil, List.reverse_reverse]

end Camlet
