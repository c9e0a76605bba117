import Camlet.Proofs.Rewriting
import Camlet.Proofs.Seeds
import Camlet.Proofs.UnusedCases

/-
  Cases that are never used are dead. Dropping them everywhere, also in the bodies of functions, is a rewriting
  that leaves every node at its place, so the declarations of a program come to the rewritten outcomes in a
  rewritten environment. It drops nothing a second time; so what was dropped cannot be told from the outcomes,
  also where the environment stays what it is. In a program that was read every pattern matches all values: the
  cases that are dropped are those that the analysis warns of, and no later case is left.
-/

namespace Camlet

open Node (Rewriting)

/-! ## Rewritten programs -/

section

variable (r : Rewriting)

/-- What a declaration came to, with its fault elsewhere or its value rewritten. -/
def Outcome.rewritten : Outcome → Outcome
  | .error f => .error ⟨r.place f.pos, f.val⟩
  | .ok q => .ok ⟨q.name, r.value q.value⟩

/-- What an evaluation came to, with its failure elsewhere or its value rewritten. -/
def Eval.rewrittenRun : Except Failure Value → Except Failure Value
  | .error e => .error (e.moved r.place)
  | .ok v => .ok (r.value v)

theorem ofRun_rewritten (d : Node) (res : Except Failure Value) :
    Outcome.ofRun (r.tree d) (Eval.rewrittenRun r res) = (Outcome.ofRun d res).map (Outcome.rewritten r) := by
  have hnamed : ∀ report report' : String → Outcome, (∀ x, report' x = Outcome.rewritten r (report x)) →
      Outcome.ofRun.named (r.tree d) report' = (Outcome.ofRun.named d report).map (Outcome.rewritten r) := by
    intro report report' hreport
    simp only [Outcome.ofRun.named, r.name?_tree, r.className_tree]
    cases d.name? with
    | none => rfl
    | some x => exact congrArg Except.ok (hreport x)
  cases res with
  | ok v => exact hnamed _ _ fun _ => rfl
  | error e =>
    cases e with
    | fault | crash => rfl
    | outOfFrames | tooLarge => exact hnamed _ _ fun x => by rw [r.pos_tree]; rfl

theorem evaluated_rewritten (limit : Int) (frames : Nat) (d : Node) (env : Env) :
    evaluated limit frames (r.tree d) (r.env env) =
      (Eval.rewrittenRun r (evaluated limit frames d env).1, r.env (evaluated limit frames d env).2) := by
  unfold evaluated
  rw [eval_rewritten r limit frames 0 d env]
  cases eval limit frames 0 d env <;> rfl

/-- Rewritten declarations come to rewritten outcomes. -/
theorem evaluateWithin_rewritten (frames : Nat) (limit : Int) (ds : List Node) (env : Env) :
    evaluateWithin frames limit (ds.map r.tree) (r.env env) =
      (evaluateWithin frames limit ds env).map fun q => (q.1.map (Outcome.rewritten r), r.env q.2) := by
  induction ds generalizing env with
  | nil => rfl
  | cons d ds ih =>
    rw [List.map_cons, evaluateWithin_eq, evaluateWithin_eq, evaluated_rewritten, ofRun_rewritten]
    cases Outcome.ofRun d (evaluated limit frames d env).1 with
    | error c => rfl
    | ok o =>
      have hrest := ih (evaluated limit frames d env).2
      simp only [Except.map, bind, Except.bind] at hrest ⊢
      rw [hrest]
      cases evaluateWithin frames limit ds (evaluated limit frames d env).2 <;> rfl

theorem evaluate_rewritten (limit : Int) (ds : List Node) (env : Env) :
    evaluate limit (ds.map r.tree) (r.env env) =
      (evaluate limit ds env).map fun q => (q.1.map (Outcome.rewritten r), r.env q.2) := by
  rcases evaluate_cases limit with hstarts | ⟨c, hcrash⟩
  · rw [hstarts, hstarts]
    exact evaluateWithin_rewritten r _ limit ds env
  · rw [hcrash, hcrash]
    rfl

end

/-! ## Trees without dead cases -/

namespace Node

mutual

/-- A tree without the cases that are never chosen, which stand behind one that matches everything. -/
def pruned : Node → Node
  | wildcard p => wildcard p
  | bind p x => bind p x
  | program p ds => program p (prunedList ds)
  | letDecl p x v => letDecl p x v.pruned
  | funDecl p x ps b r => funDecl p x ps b.pruned r
  | exprStmt p e => exprStmt p e.pruned
  | letIn p x v b r => letIn p x v.pruned b.pruned r
  | cond p c t e => cond p c.pruned t.pruned e.pruned
  | matching p s cs => matching p s.pruned (prunedCases cs)
  | lambda p x b => lambda p x b.pruned
  | apply p g a => apply p g.pruned a.pruned
  | binary p o l r => binary p o l.pruned r.pruned
  | unary p o e => unary p o e.pruned
  | intLit p n => intLit p n
  | floatLit p x => floatLit p x
  | stringLit p s => stringLit p s
  | charLit p s => charLit p s
  | ident p x => ident p x

/-- Trees without dead cases. -/
def prunedList : List Node → List Node
  | [] => []
  | d :: ds => d.pruned :: prunedList ds

/-- The cases up to the first that matches everything, their bodies without dead cases. -/
def prunedCases : List (Node × Node) → List (Node × Node)
  | [] => []
  | (p, e) :: cs => (p, e.pruned) :: if p.matchesAll then [] else prunedCases cs

end

mutual

/-- Nothing is dropped a second time. -/
theorem pruned_pruned : ∀ e : Node, e.pruned.pruned = e.pruned
  | wildcard _ | bind .. | intLit .. | floatLit .. | stringLit .. | charLit .. | ident .. => rfl
  | program _ ds => by simp only [pruned, prunedList_prunedList ds]
  | letDecl _ _ v => by simp only [pruned, pruned_pruned v]
  | funDecl _ _ _ b _ => by simp only [pruned, pruned_pruned b]
  | exprStmt _ e => by simp only [pruned, pruned_pruned e]
  | letIn _ _ v b _ => by simp only [pruned, pruned_pruned v, pruned_pruned b]
  | cond _ c t e => by simp only [pruned, pruned_pruned c, pruned_pruned t, pruned_pruned e]
  | matching _ s cs => by simp only [pruned, pruned_pruned s, prunedCases_prunedCases cs]
  | lambda _ _ b => by simp only [pruned, pruned_pruned b]
  | apply _ g a => by simp only [pruned, pruned_pruned g, pruned_pruned a]
  | binary _ _ l r => by simp only [pruned, pruned_pruned l, pruned_pruned r]
  | unary _ _ e => by simp only [pruned, pruned_pruned e]

theorem prunedList_prunedList : ∀ ds : List Node, prunedList (prunedList ds) = prunedList ds
  | [] => rfl
  | d :: ds => by simp only [prunedList, pruned_pruned d, prunedList_prunedList ds]

theorem prunedCases_prunedCases : ∀ cs : List (Node × Node), prunedCases (prunedCases cs) = prunedCases cs
  | [] => rfl
  | (p, e) :: cs => by
    simp only [prunedCases, pruned_pruned e]
    split
    · rfl
    · rw [prunedCases_prunedCases cs]

end

theorem chosen_prunedCases (cs : List (Node × Node)) :
    chosen (prunedCases cs) = (chosen cs).map fun c => (c.1.pruned, c.2.pruned) := by
  induction cs with
  | nil => rfl
  | cons c cs ih =>
    obtain ⟨p, e⟩ := c
    cases p with
    | wildcard | bind => rfl
    | _ => exact ih

/-- Dropping dead cases is a rewriting that leaves all nodes where they are. -/
def pruning : Rewriting where
  place := id
  tree := pruned
  cases := prunedCases
  body := prunedList
  tree_eq n := by cases n <;> rfl
  chosen_cases := chosen_prunedCases

/-- An expression has no later case left. -/
theorem laterCases_pruned {e : Node} (he : IsExpression e) : e.pruned.laterCases = [] := by
  induction he with
  | intLit | floatLit | stringLit | charLit | ident => rfl
  | lambda pos x _ ih => exact ih
  | unary pos o _ ih => exact ih
  | letIn pos x _ _ _ hv hb => rw [pruned, laterCases, hv, hb, List.append_nil]
  | cond pos _ _ _ hc ht he => rw [pruned, laterCases, hc, ht, he, List.append_nil, List.append_nil]
  | apply pos _ _ hg ha => rw [pruned, laterCases, hg, ha, List.append_nil]
  | binary pos o _ _ _ hl hr => rw [pruned, laterCases, hl, hr, List.append_nil]
  | @matching pos s cs _ hne hp _ hs hbodies =>
    cases cs with
    | nil => exact absurd rfl hne
    | cons c cs =>
      obtain ⟨p, e⟩ := c
      have hall : p.matchesAll = true := by cases hp _ (List.mem_cons_self ..) <;> rfl
      have he : e.pruned.laterCases = [] := hbodies _ (List.mem_cons_self ..)
      rw [pruned, prunedCases, if_pos hall, laterCases, hs, laterCasesBehind, he]
      rfl

theorem laterCases_pruned_declaration {d : Node} (hd : IsDeclaration d) : d.pruned.laterCases = [] := by
  cases hd with
  | letDecl pos x hv =>
    rw [pruned, laterCases]
    exact laterCases_pruned hv
  | funDecl pos x p ps r hb =>
    rw [pruned, laterCases]
    exact laterCases_pruned hb
  | exprStmt pos he =>
    rw [pruned, laterCases]
    exact laterCases_pruned he

end Node

theorem shown_pruned (os : List Outcome) :
    (os.map (Outcome.rewritten Node.pruning)).map Outcome.shown = os.map Outcome.shown := by
  rw [List.map_map]
  refine List.map_congr_left fun o _ => ?_
  cases o with
  | error f => rfl
  | ok q =>
    simp only [Function.comp, Outcome.rewritten, Outcome.shown, Rewriting.kind_value, Rewriting.render_value]

/-- What is shown of the outcomes of declarations. -/
def evaluateShown (limit : Int) (ds : List Node) (env : Env) :
    Except Crash (List (Except (Located RuntimeFault) (String × Kind × Except Crash String))) :=
  (evaluate limit ds env).map fun q => q.1.map Outcome.shown

/-- Dropping dead cases of declarations and of closures changes nothing that is shown. -/
theorem evaluateShown_pruning (limit : Int) (ds : List Node) (env : Env) :
    evaluateShown limit (ds.map Node.pruned) (Node.pruning.env env) = evaluateShown limit ds env := by
  unfold evaluateShown
  rw [show Node.pruned = Node.pruning.tree from rfl, evaluate_rewritten]
  cases evaluate limit ds env with
  | error c => rfl
  | ok q => exact congrArg Except.ok (shown_pruned q.1)

/-- Nor does dropping those of the declarations alone. -/
theorem evaluateShown_pruned (limit : Int) (ds : List Node) (env : Env) :
    evaluateShown limit (ds.map Node.pruned) env = evaluateShown limit ds env := by
  have htwice : (ds.map Node.pruned).map Node.pruned = ds.map Node.pruned := by
    rw [List.map_map]
    exact List.map_congr_left fun d _ => d.pruned_pruned
  calc evaluateShown limit (ds.map Node.pruned) env
    _ = evaluateShown limit ((ds.map Node.pruned).map Node.pruned) (Node.pruning.env env) :=
      (evaluateShown_pruning limit _ env).symm
    _ = evaluateShown limit (ds.map Node.pruned) (Node.pruning.env env) := by rw [htwice]
    _ = evaluateShown limit ds env := evaluateShown_pruning limit ds env

/-- If the analysis of a program that was read finds no fault, it warns of each case behind the first of its case
distinction, in order and at its pattern, and of nothing else. Without those cases, which leaves none behind a
first one, the program comes to the same outcomes in every environment. -/
theorem later_cases_dead {source : String} {p : Program} {types : Frame} {a : Analysis}
    (hp : (parse source).program = some p) (h : analyze p.body types = .ok a) (ha : a.errors = []) :
    a.warnings = (p.body.flatMap Node.laterCases).map LaterCase.warning ∧
    (∀ d ∈ p.body, d.pruned.laterCases = []) ∧
    ∀ limit values, evaluateShown limit (p.body.map Node.pruned) values = evaluateShown limit p.body values := by
  have hbody := parse_isDeclaration hp
  refine ⟨?_, fun d hd => Node.laterCases_pruned_declaration (hbody d hd), fun limit values => ?_⟩
  · rw [analyze_warnings hbody h ha, List.map_flatMap]
    rfl
  · exact evaluateShown_pruned limit p.body values

/-- A function with a dead case in which there is another. -/
def deadInDead : String := "let f x =\n  match x with | y -> y / 0 | _ -> match x with | y -> 2 | z -> 3;;\nf 1;;"

/-- Both are reported, and the function divides by zero without them as it does with them. -/
theorem later_cases_dead_nested :
    ∃ p a, (parse deadInDead).program = some p ∧ analyze p.body [] = .ok a ∧ a.errors = [] ∧
      (p.body.flatMap Node.laterCases).map (fun c => c.warning.pos) = [⟨2, 31⟩, ⟨2, 60⟩] ∧
      (∀ d ∈ p.body, d.pruned.laterCases = []) ∧
      ∀ values, evaluateShown 1000 (p.body.map Node.pruned) values = evaluateShown 1000 p.body values := by
  have hrun : ((parse deadInDead).program.bind fun p => (analyze p.body []).toOption.map fun a =>
      (a.errors.isEmpty, a.warnings.map Located.pos)) = some (true, [⟨2, 31⟩, ⟨2, 60⟩]) := by decide +kernel
  obtain ⟨p, hp, hmap⟩ := Option.bind_eq_some_iff.mp hrun
  obtain ⟨a, ha, hfacts⟩ := Option.map_eq_some_iff.mp hmap
  obtain ⟨herrors, hplaces⟩ := Prod.mk.inj hfacts
  have hnone : a.errors = [] := List.isEmpty_iff.mp herrors
  obtain ⟨hwarnings, hpruned, hshown⟩ := later_cases_dead hp (toOption_eq_some.mp ha) hnone
  refine ⟨p, a, hp, toOption_eq_some.mp ha, hnone, ?_, hpruned, hshown 1000⟩
  rw [hwarnings, List.map_map] at hplaces
  exact hplaces

end Camlet
