import Camlet.Proofs.Confinement
import Camlet.Proofs.Failures
import Camlet.Proofs.Relocation
import Camlet.Proofs.Successes

/-
  Where diagnostics point. What is reported of a text stands at a token of it, with one exception: the body of
  a function keeps the places of the text that it was written in, so an error inside a function of an earlier
  text points into that one, while the later one is quoted.

  The proofs look at a map of places that leaves alone the places of a text's tokens, and show that it leaves
  alone whatever is made of them: trees and faults of reading, warnings and faults of the analysis, the bodies
  of closures and the errors of evaluation. Reading and evaluation commute with moving, and what is moved and
  stays the same comes to an end that stays the same; only the analysis is followed rule by rule. The map may
  move all other places, so what it leaves alone stands at a token.
-/

namespace Camlet

open Stateful

/-! ## Places of tokens -/

/-- A place at which a text has a token, its end included. -/
def IsTokenPlace (source : String) (p : Pos) : Prop := ∃ t ∈ tokenize source, t.pos = p

/-- A place that a map of places leaves alone. -/
def Pos.Fixed (f : Pos → Pos) (p : Pos) : Prop := f p = p

open Classical in
/-- Moves all places but those of which `P` holds. -/
noncomputable def Pos.besides (P : Pos → Prop) (p : Pos) : Pos := if P p then p else ⟨p.line + 1, p.column⟩

theorem Pos.fixed_besides {P : Pos → Prop} {p : Pos} : Fixed (besides P) p ↔ P p := by
  unfold Fixed besides
  split
  next h => exact ⟨fun _ => h, fun _ => rfl⟩
  next h =>
    refine ⟨fun heq => ?_, fun h' => absurd h' h⟩
    have hline : p.line + 1 = p.line := congrArg Pos.line heq
    omega

/-! ## Reading -/

/-- A fault of reading stands where the tokens end, or at one of them. -/
theorem read_places {budget : Nat} {stop : Pos} {ts : List Token} :
    ∀ e ∈ (Parsed.read budget stop ts).2, e.pos = stop ∨ ∃ t ∈ ts, t.pos = e.pos := by
  intro e he
  obtain ⟨u, us, s, left, hus, hleft, hblame, rfl⟩ := Parsed.read_faults ts e he
  cases hblame with
  | unfit t rest ex => exact .inr ⟨t, hus.subset (hleft.subset (List.mem_cons_self ..)), rfl⟩
  | atEnd ex => exact .inl rfl
  | @fault t g _ ht _ => exact .inr ⟨t, hus.subset ht, rfl⟩
  | tooDeep => exact .inr ⟨u, hus.subset (List.mem_cons_self ..), rfl⟩

theorem isTokenPlace_end (source : String) : IsTokenPlace source (Pos.first.after source.toList) := by
  refine ⟨⟨.endOfInput, "", _, none⟩, ?_, rfl⟩
  rw [tokenize_eq_body]
  exact List.mem_append_right _ (List.mem_singleton.mpr rfl)

theorem isTokenPlace_significant {source : String} {t : Token}
    (ht : t ∈ significant (Lexer.body .first source.toList)) : IsTokenPlace source t.pos :=
  ⟨t, mem_tokenize_of_significant ht, rfl⟩

/-- Every fault of reading a text stands at a token of it. -/
theorem parse_errors_place (source : String) : ∀ e ∈ (parse source).errors, IsTokenPlace source e.pos := by
  intro e he
  rw [(Prod.mk.inj (parse_eq_read source)).2] at he
  rcases read_places e he with hpos | ⟨t, ht, hpos⟩
  · exact hpos ▸ isTokenPlace_end source
  · exact hpos ▸ isTokenPlace_significant ht

section

variable {f : Pos → Pos}

/-- Declarations of which all tokens stay where they are stay what they are. -/
theorem read_fixed {budget : Nat} {stop : Pos} {ts : List Token} {ds : List Node}
    (hts : ∀ t ∈ ts, Pos.Fixed f t.pos) (h : Parsed.read budget stop ts = (ds, [])) :
    ∀ d ∈ ds, d.moved f = d := by
  have htokens : ts.map (Token.moved f) = ts := by
    refine (List.map_congr_left fun t ht => ?_).trans (List.map_id ts)
    exact congrArg (fun p => { t with pos := p }) (hts t ht)
  have hmoved := read_moved h f stop
  rw [htokens, h] at hmoved
  have hds : ds.map (Node.moved f) = ds.map id := by
    rw [List.map_id]
    exact (Prod.mk.inj hmoved).1.symm
  exact List.map_inj_left.mp hds

theorem accepted?_fixed {source : String} {p : Program} (hf : ∀ q, IsTokenPlace source q → Pos.Fixed f q)
    (hp : accepted? source = some p) : ∀ d ∈ p.body, d.moved f = d := by
  obtain ⟨herrors, hbody⟩ := accepted?_errors hp
  have hread := parse_eq_read source
  rw [herrors, ← hbody] at hread
  exact read_fixed (fun t ht => hf _ (isTokenPlace_significant ht)) hread.symm

end

/-! ## The analysis -/

/-- The fault of a declaration that is left stands at a place of which `P` holds. -/
def Refusal.PointsTo (P : Pos → Prop) : Refusal → Prop
  | .fault g => P g.pos
  | .tooDeep | .crash _ => True

namespace Check

variable {α β : Type} {P : Pos → Prop}

/-- If all warnings so far stand at places of which `P` holds, all do that there are afterwards, and so does the
fault at which the step stops. -/
def PointsTo (P : Pos → Prop) (x : Check α) : Prop :=
  ∀ c, (∀ w ∈ c.warnings, P w.pos) →
    match x c with
    | .ok _ c' => ∀ w ∈ c'.warnings, P w.pos
    | .error r c' => (∀ w ∈ c'.warnings, P w.pos) ∧ r.PointsTo P

variable {x : Check α} {pos : Pos}

theorem pointsTo_pure (a : α) : PointsTo P (pure a) := fun _ hc => hc

theorem pointsTo_throw {r : Refusal} (h : r.PointsTo P) : PointsTo P (throw r : Check α) := fun _ hc => ⟨hc, h⟩

theorem pointsTo_refuse (hpos : P pos) (g : TypeFault) : PointsTo P (refuse pos g : Check α) :=
  pointsTo_throw hpos

theorem PointsTo.bind {k : α → Check β} (hx : PointsTo P x) (hk : ∀ a, PointsTo P (k a)) : PointsTo P (x >>= k) := by
  intro c hc
  have h := hx c hc
  rw [bind_run]
  cases hrun : x c with
  | ok a c' =>
    rw [hrun] at h
    exact hk a c' h
  | error r c' =>
    rw [hrun] at h
    exact h

theorem PointsTo.ite {p : Prop} [Decidable p] {y : Check α} (hx : PointsTo P x) (hy : PointsTo P y) :
    PointsTo P (if p then x else y) := by
  split
  · exact hx
  · exact hy

theorem pointsTo_unless {b : Bool} {g : TypeFault} {k : Unit → Check α} (hpos : P pos) (hx : PointsTo P x)
    (hk : ∀ u, PointsTo P (k u)) : PointsTo P (if b = true then x else refuse pos g >>= k) :=
  hx.ite ((pointsTo_refuse hpos g).bind hk)

theorem PointsTo.within (hx : PointsTo P x) (frame : Frame) : PointsTo P (within frame x) := by
  intro c hc
  have h := hx { c with scopes := frame :: c.scopes } hc
  rw [Check.within]
  cases hrun : x { c with scopes := frame :: c.scopes } with
  | ok a c' =>
    rw [hrun] at h
    exact h
  | error r c' =>
    rw [hrun] at h
    exact h

theorem pointsTo_declare (hpos : P pos) (x : String) (t : Typing) : PointsTo P (declare pos x t) := by
  intro c hc
  rw [declare, get_bind]
  cases c.scopes.declare x t with
  | ok s => exact hc
  | error g => exact ⟨hc, hpos⟩

theorem pointsTo_assign (x : String) (t : Typing) : PointsTo P (assign x t) := fun _ hc => hc

theorem pointsTo_lookup (hpos : P pos) (x : String) : PointsTo P (lookup pos x) := by
  intro c hc
  rw [lookup, get_bind]
  cases c.scopes.lookup x with
  | ok t => exact hc
  | error g => exact ⟨hc, hpos⟩

theorem pointsTo_warn (hpos : P pos) (w : Warning) : PointsTo P (warn pos w) :=
  fun _ hc => List.forall_mem_cons.mpr ⟨hpos, hc⟩

end Check

namespace Infer

open Check

variable {P : Pos → Prop} {sub : Node → Check Typing} {pos : Pos}

theorem pointsTo_params (hpos : P pos) (ps : List String) : PointsTo P (params pos ps) := by
  induction ps with
  | nil => exact pointsTo_pure ()
  | cons p ps ih => exact (pointsTo_declare hpos p _).bind fun _ => ih

theorem pointsTo_letDecl (hpos : P pos) (x : String) {v : Node} (hv : PointsTo P (sub v)) :
    PointsTo P (letDecl sub pos x v) :=
  hv.bind fun t => (pointsTo_declare hpos x t).bind fun _ => pointsTo_pure t

theorem pointsTo_funDecl (hpos : P pos) (x : String) (ps : List String) (r : Bool) {b : Node}
    (hb : PointsTo P (sub b)) : PointsTo P (funDecl sub pos x ps b r) :=
  ((((pointsTo_params hpos ps).bind fun _ => hb).within []).within _).bind fun _ =>
    (pointsTo_declare hpos x _).bind fun _ => pointsTo_pure _

theorem pointsTo_letIn (hpos : P pos) (x : String) (r : Bool) {v b : Node} (hv : PointsTo P (sub v))
    (hb : PointsTo P (sub b)) : PointsTo P (letIn sub pos x v b r) := by
  refine PointsTo.within ?_ []
  cases r with
  | false => exact hv.bind fun t => (pointsTo_declare hpos x t).bind fun _ => hb
  | true =>
    exact (pointsTo_declare hpos x _).bind fun _ => hv.bind fun t => (pointsTo_assign x t).bind fun _ => hb

theorem pointsTo_cond (hpos : P pos) {n m k : Node} (hn' : P n.pos) (hn : PointsTo P (sub n))
    (hm : PointsTo P (sub m)) (hk : PointsTo P (sub k)) : PointsTo P (Infer.cond sub pos n m k) := by
  have hbranches : PointsTo P (sub m >>= fun t => sub k >>= fun e =>
      if t.compatible e = true then pure (t.unify e)
      else refuse pos (.branches t.name e.name) >>= fun _ => pure (t.unify e)) :=
    hm.bind fun _ => hk.bind fun _ => pointsTo_unless hpos (pointsTo_pure _) fun _ => pointsTo_pure _
  exact hn.bind fun _ => pointsTo_unless hn' hbranches fun _ => hbranches

theorem pointsTo_cases {before : Typing} {all : Option Node} {cs : List (Node × Node)}
    (h : ∀ c ∈ cs, P c.1.pos ∧ P c.2.pos ∧ PointsTo P (sub c.2)) : PointsTo P (cases sub before all cs) := by
  induction cs generalizing before all with
  | nil => exact pointsTo_pure before
  | cons c cs ih =>
    obtain ⟨p, e⟩ := c
    obtain ⟨⟨hp, he', he⟩, hcs⟩ := List.forall_mem_cons.mp h
    have hrest : PointsTo P (caseAndRest sub before all p e cs) := by
      refine (PointsTo.within ?_ []).bind fun _ =>
        PointsTo.ite ((pointsTo_refuse he' _).bind fun _ => ih hcs) (ih hcs)
      cases p with
      | bind q x => exact (pointsTo_declare hp x _).bind fun _ => he
      | _ => exact he
    cases all with
    | none => exact hrest
    | some q => exact (pointsTo_warn hp _).bind fun _ => hrest

theorem pointsTo_matching {s : Node} {cs : List (Node × Node)} (hs : PointsTo P (sub s))
    (h : ∀ c ∈ cs, P c.1.pos ∧ P c.2.pos ∧ PointsTo P (sub c.2)) : PointsTo P (matching sub s cs) :=
  hs.bind fun _ => pointsTo_cases h

theorem pointsTo_lambda (hpos : P pos) (x : String) {b : Node} (hb : PointsTo P (sub b)) :
    PointsTo P (lambda sub pos x b) :=
  ((pointsTo_declare hpos x _).bind fun _ => hb.bind fun _ => pointsTo_pure _).within []

theorem pointsTo_apply (hpos : P pos) {g a : Node} (hg : PointsTo P (sub g)) (ha : PointsTo P (sub a)) :
    PointsTo P (apply sub pos g a) := by
  refine hg.bind fun t => ha.bind fun _ => ?_
  cases t with
  | none => exact pointsTo_throw trivial
  | some t => exact (pointsTo_pure _).ite ((pointsTo_pure _).ite (pointsTo_refuse hpos _))

theorem pointsTo_operand (fits : Typing → Bool) (fault : String → String → TypeFault) {n : Node} (hn : P n.pos)
    (t : Typing) : PointsTo P (operand fits fault n t) :=
  (pointsTo_pure _).ite (pointsTo_refuse hn _)

theorem pointsTo_binary (hpos : P pos) (o : String) {l r : Node} (hl' : P l.pos) (hr' : P r.pos)
    (hl : PointsTo P (sub l)) (hr : PointsTo P (sub r)) : PointsTo P (binary sub pos o l r) := by
  have hoperands : ∀ fits fault tl tr {x : Check Typing}, PointsTo P x →
      PointsTo P (operand fits fault l tl >>= fun _ => operand fits fault r tr >>= fun _ => x) :=
    fun fits fault tl tr _ hx => (pointsTo_operand fits fault hl' tl).bind fun _ =>
      (pointsTo_operand fits fault hr' tr).bind fun _ => hx
  have hresult : ∀ t : Typing, PointsTo P (if comparisonOperators.contains o then pure (some .int)
      else if arithmeticOperators.contains o then pure t else refuse pos (.unknownOperator o)) :=
    fun t => (pointsTo_pure _).ite ((pointsTo_pure t).ite (pointsTo_refuse hpos _))
  refine hl.bind fun tl => hr.bind fun tr => PointsTo.ite (hoperands _ _ _ _ (pointsTo_pure _)) ?_
  refine PointsTo.ite (hoperands _ _ _ _ (pointsTo_pure _)) (hoperands _ _ _ _ ?_)
  exact pointsTo_unless hpos (hresult _) fun _ => hresult _

theorem pointsTo_unary (hpos : P pos) (o : String) {e : Node} (he : PointsTo P (sub e)) :
    PointsTo P (unary sub pos o e) :=
  he.bind fun _ => PointsTo.ite (pointsTo_unless hpos (pointsTo_pure _) fun _ => pointsTo_pure _)
    (pointsTo_unless hpos (pointsTo_pure _) fun _ => pointsTo_pure _)

end Infer

section

variable {f : Pos → Pos}

theorem Node.movedCases_fixed {cs : List (Node × Node)} (h : movedCases f cs = cs) :
    ∀ c ∈ cs, c.1.moved f = c.1 ∧ c.2.moved f = c.2 := by
  induction cs with
  | nil => exact List.forall_mem_nil _
  | cons c cs ih =>
    obtain ⟨p, e⟩ := c
    obtain ⟨hc, hcs⟩ := List.cons.inj h
    obtain ⟨hp, he⟩ := Prod.mk.inj hc
    exact List.forall_mem_cons.mpr ⟨⟨hp, he⟩, ih hcs⟩

theorem Node.pos_fixed {e : Node} (h : e.moved f = e) : Pos.Fixed f e.pos :=
  (e.pos_moved f).symm.trans (congrArg Node.pos h)

open Infer in
/-- The warnings and the fault of a node that stays where it is stay where they are. -/
theorem infer_fixed (depth : Nat) {e : Node} (h : e.moved f = e) :
    (infer depth e).PointsTo (Pos.Fixed f) := by
  induction depth generalizing e with
  | zero => exact Check.pointsTo_throw trivial
  | succ depth ih =>
    have hpos : Pos.Fixed f e.pos := Node.pos_fixed h
    cases e with
    | wildcard | bind | program => exact Check.pointsTo_refuse hpos _
    | intLit | floatLit | stringLit | charLit => exact Check.pointsTo_pure _
    | ident pos x => exact Check.pointsTo_lookup hpos x
    | letDecl pos x v =>
      obtain ⟨-, -, hv⟩ := Node.letDecl.inj h
      exact pointsTo_letDecl hpos x (ih hv)
    | funDecl pos x ps b r =>
      obtain ⟨-, -, -, hb, -⟩ := Node.funDecl.inj h
      exact pointsTo_funDecl hpos x ps r (ih hb)
    | exprStmt pos e =>
      obtain ⟨-, he⟩ := Node.exprStmt.inj h
      exact ih he
    | letIn pos x v b r =>
      obtain ⟨-, -, hv, hb, -⟩ := Node.letIn.inj h
      exact pointsTo_letIn hpos x r (ih hv) (ih hb)
    | cond pos n m k =>
      obtain ⟨-, hn, hm, hk⟩ := Node.cond.inj h
      exact pointsTo_cond hpos (Node.pos_fixed hn) (ih hn) (ih hm) (ih hk)
    | matching pos s cs =>
      obtain ⟨-, hs, hcs⟩ := Node.matching.inj h
      refine pointsTo_matching (ih hs) fun c hc => ?_
      obtain ⟨hp, he⟩ := Node.movedCases_fixed hcs c hc
      exact ⟨Node.pos_fixed hp, Node.pos_fixed he, ih he⟩
    | lambda pos x b =>
      obtain ⟨-, -, hb⟩ := Node.lambda.inj h
      exact pointsTo_lambda hpos x (ih hb)
    | apply pos g a =>
      obtain ⟨-, hg, ha⟩ := Node.apply.inj h
      exact pointsTo_apply hpos (ih hg) (ih ha)
    | binary pos o l r =>
      obtain ⟨-, -, hl, hr⟩ := Node.binary.inj h
      exact pointsTo_binary hpos o (Node.pos_fixed hl) (Node.pos_fixed hr) (ih hl) (ih hr)
    | unary pos o e =>
      obtain ⟨-, -, he⟩ := Node.unary.inj h
      exact pointsTo_unary hpos o (ih he)

/-- The faults and the warnings of declarations that stay where they are stay where they are. -/
theorem declarations_fixed {depth : Nat} {c : Context} {ds : List Node} {bs : List (String × Typing)}
    {fs : List (Located TypeFault)} {ws : List (Located Warning)} (hds : ∀ d ∈ ds, d.moved f = d)
    (hc : ∀ w ∈ c.warnings, Pos.Fixed f w.pos) (h : Analysis.declarations depth c ds = .ok (bs, fs, ws)) :
    (∀ e ∈ fs, Pos.Fixed f e.pos) ∧ ∀ w ∈ ws, Pos.Fixed f w.pos := by
  induction ds generalizing c bs fs with
  | nil =>
    cases h
    exact ⟨List.forall_mem_nil _, hc⟩
  | cons d ds ih =>
    obtain ⟨hd, hds⟩ := List.forall_mem_cons.mp hds
    have hpoints := infer_fixed depth hd c hc
    rcases declarations_step h with ⟨t, c₁, name, bs', hinfer, -, -, hrest⟩ | ⟨r, c₁, g, fs', hinfer, hg, rfl, hrest⟩
    · rw [hinfer] at hpoints
      exact ih hds hpoints hrest
    · rw [hinfer] at hpoints
      obtain ⟨hws, hr⟩ := hpoints
      obtain ⟨hfs, hws⟩ := ih hds hws hrest
      refine ⟨List.forall_mem_cons.mpr ⟨?_, hfs⟩, hws⟩
      cases r with
      | fault e =>
        cases hg
        exact hr
      | tooDeep =>
        cases hg
        exact Node.pos_fixed hd
      | crash => cases hg

theorem analyze_fixed {body : List Node} {types : Frame} {a : Analysis} (hbody : ∀ d ∈ body, d.moved f = d)
    (h : analyze body types = .ok a) :
    (∀ e ∈ a.errors, Pos.Fixed f e.pos) ∧ ∀ w ∈ a.warnings, Pos.Fixed f w.pos := by
  obtain ⟨⟨bs, fs, ws⟩, hdecls, heq⟩ := except_bind_eq_ok.mp h
  cases heq
  obtain ⟨hfs, hws⟩ := declarations_fixed hbody (List.forall_mem_nil _) hdecls
  exact ⟨hfs, fun w hw => hws w (List.mem_reverse.mp hw)⟩

/-! ## Evaluation -/

open Value (movedEnv)

theorem movedEnv_fixed {env : Env} : movedEnv f env = env ↔ ∀ b ∈ env, b.2.moved f = b.2 := by
  induction env with
  | nil => simp [movedEnv]
  | cons b env ih =>
    obtain ⟨x, v⟩ := b
    simp only [movedEnv, List.cons.injEq, Prod.mk.injEq, true_and, ih, List.forall_mem_cons]

/-- A declaration that stays where it is, in an environment that does, leaves one that does, and a fault of it
stays where it is. -/
theorem evaluated_fixed {limit : Int} {frames : Nat} {d : Node} {env env' : Env} {res : Except Failure Value}
    (hd : d.moved f = d) (henv : movedEnv f env = env) (h : evaluated limit frames d env = (res, env')) :
    movedEnv f env' = env' ∧ ∀ e, res = .error (.fault e) → Pos.Fixed f e.pos := by
  have hmoved := eval_moved limit frames 0 f d env
  rw [hd, henv] at hmoved
  unfold evaluated at h
  cases hrun : eval limit frames 0 d env with
  | ok v env₁ =>
    rw [hrun] at h hmoved
    cases h
    rw [Eval.movedEnd] at hmoved
    obtain ⟨-, henv'⟩ := EStateM.Result.ok.inj hmoved
    refine ⟨henv'.symm, fun e he => ?_⟩
    cases he
  | error e env₁ =>
    rw [hrun] at h hmoved
    cases h
    rw [Eval.movedEnd] at hmoved
    obtain ⟨he, henv'⟩ := EStateM.Result.error.inj hmoved
    refine ⟨henv'.symm, fun g hg => ?_⟩
    cases hg
    exact (congrArg Located.pos (Failure.fault.inj he)).symm

/-- What is reported of a declaration stands at a fault of its evaluation or at the declaration. -/
theorem ofRun_place {d : Node} {res : Except Failure Value} {e : Located RuntimeFault}
    (h : Outcome.ofRun d res = .ok (.error e)) : res = .error (.fault e) ∨ e.pos = d.pos := by
  cases res with
  | ok v =>
    simp only [Outcome.ofRun, Outcome.ofRun.named] at h
    split at h <;> cases h
  | error r =>
    cases r with
    | fault g =>
      cases h
      exact .inl rfl
    | crash => cases h
    | outOfFrames | tooLarge =>
      simp only [Outcome.ofRun, Outcome.ofRun.named] at h
      split at h <;> cases h
      exact .inr rfl

theorem evaluateWithin_fixed {limit : Int} {frames : Nat} {ds : List Node} {env env' : Env} {os : List Outcome}
    (hds : ∀ d ∈ ds, d.moved f = d) (henv : movedEnv f env = env)
    (h : evaluateWithin frames limit ds env = .ok (os, env')) :
    movedEnv f env' = env' ∧ ∀ e, .error e ∈ os → Pos.Fixed f e.pos := by
  induction ds generalizing env os with
  | nil =>
    cases h
    exact ⟨henv, nofun⟩
  | cons d ds ih =>
    obtain ⟨hd, hds⟩ := List.forall_mem_cons.mp hds
    obtain ⟨res, env₁, o, os', hres, ho, rfl, hrest⟩ := evaluateWithin_cons h
    obtain ⟨henv₁, hfault⟩ := evaluated_fixed hd henv hres
    obtain ⟨henv', hos⟩ := ih hds henv₁ hrest
    refine ⟨henv', fun e he => ?_⟩
    rcases List.mem_cons.mp he with rfl | he
    · rcases ofRun_place ho with hr | hpos
      · exact hfault e hr
      · rw [hpos]
        exact Node.pos_fixed hd
    · exact hos e he

/-! ## Runs and sessions -/

/-- What the analysis of a text reports stays where it is, if the tokens of the text do. -/
theorem run_analysis_fixed {source : String} {types : Frame} {values : Env} {limit : Int} {r : Run} {a : Analysis}
    (hf : ∀ q, IsTokenPlace source q → Pos.Fixed f q) (h : run source types values limit = .ok r)
    (ha : r.analysis = some a) :
    (∀ e ∈ a.errors, Pos.Fixed f e.pos) ∧ ∀ w ∈ a.warnings, Pos.Fixed f w.pos := by
  cases run_ends_in h with
  | unread => cases ha
  | refused hp hanalysis =>
    cases ha
    exact analyze_fixed (accepted?_fixed hf hp) hanalysis
  | evaluated hp hanalysis =>
    cases ha
    exact analyze_fixed (accepted?_fixed hf hp) hanalysis

/-- What a run binds and the errors of its evaluation stay where they are, if the tokens of its text and the values
that it is given do. -/
theorem run_fixed {source : String} {types : Frame} {values : Env} {limit : Int} {r : Run}
    (hf : ∀ q, IsTokenPlace source q → Pos.Fixed f q) (hvalues : movedEnv f values = values)
    (h : run source types values limit = .ok r) :
    movedEnv f r.env = r.env ∧ ∀ e ∈ r.runtimeErrors, Pos.Fixed f e.pos := by
  cases run_ends_in h with
  | unread | refused => exact ⟨rfl, nofun⟩
  | evaluated hp _ _ heval =>
    rw [evaluate_starts heval] at heval
    obtain ⟨henv, hos⟩ := evaluateWithin_fixed (accepted?_fixed hf hp) hvalues heval
    exact ⟨henv, fun e he => hos e (Run.mem_runtimeErrors.mp he)⟩

theorem Bindings.mem_of_mem_visible {α : Type} {m : Bindings α} {b : String × α} (h : b ∈ m.visible) : b ∈ m := by
  induction m with
  | nil => exact h
  | cons e m ih =>
    rcases List.mem_cons.mp h with rfl | h
    · exact List.mem_cons_self ..
    · exact List.mem_cons_of_mem _ (ih (List.mem_of_mem_filter h))

/-- A session binds what it bound before a run, or what the run bound. -/
theorem mem_absorb_values {s : Session} {r : Run} {b : String × Value} (h : b ∈ (s.absorb r).values) :
    b ∈ r.env ∨ b ∈ s.values := by
  unfold Session.absorb at h
  split at h
  · exact (List.mem_append.mp (Bindings.mem_of_mem_visible h)).imp_left List.mem_of_mem_filter
  · exact .inr h

/-- The values of a session stay where they are, if its texts do. -/
theorem after_fixed {s : Session} {sources : List String} (hs : movedEnv f s.values = s.values)
    (hf : ∀ source ∈ sources, ∀ q, IsTokenPlace source q → Pos.Fixed f q) :
    movedEnv f (s.after sources).values = (s.after sources).values := by
  induction sources generalizing s with
  | nil => exact hs
  | cons source sources ih =>
    obtain ⟨hsource, hsources⟩ := List.forall_mem_cons.mp hf
    refine ih ?_ hsources
    obtain ⟨-, hsame⟩ | ⟨r, hr, habsorb, -⟩ := turn_cases s source
    · rw [hsame]
      exact hs
    · obtain ⟨henv, -⟩ := run_fixed hsource hs hr
      rw [habsorb, movedEnv_fixed]
      exact fun b hb => (mem_absorb_values hb).elim (movedEnv_fixed.mp henv b) (movedEnv_fixed.mp hs b)

end

theorem Value.moved_of_not_function {v : Value} (f : Pos → Pos) (h : v.kind ≠ .function) : v.moved f = v := by
  cases v with
  | closure => exact absurd rfl h
  | int | float | string | char => rfl

theorem turn_lines (s : Session) (source : String) :
    (s.turn source).session.reporter.lines = Text.lines source.toList := by
  obtain ⟨-, hsame⟩ | ⟨r, -, habsorb, -⟩ := turn_cases s source
  · rw [hsame]
    rfl
  · rw [habsorb, (absorb_unchanged _ r).2.2]
    rfl

/-- In a session that was empty at first, after any texts: a text is quoted when it is run, and all errors of
reading, errors of the analysis and warnings stand at tokens of it. So do errors of evaluation, unless the session
has a function; then they may also stand at a token of a text before, where the function was written. -/
theorem run_points (reporter : Reporter) (path : String) (interactive : Bool) (options : Options)
    (sources : List String) (source : String) :
    let s := (Session.fresh reporter path interactive options).after sources
    (s.turn source).session.reporter.lines = Text.lines source.toList ∧
    ∀ r, run source s.types s.values options.limit = .ok r →
      (∀ e ∈ r.syntaxErrors, IsTokenPlace source e.pos) ∧
      (∀ a, r.analysis = some a →
        (∀ e ∈ a.errors, IsTokenPlace source e.pos) ∧ ∀ w ∈ a.warnings, IsTokenPlace source w.pos) ∧
      ∀ e ∈ r.runtimeErrors, IsTokenPlace source e.pos ∨
        (∃ b ∈ s.values, b.2.kind = .function) ∧ ∃ earlier ∈ sources, IsTokenPlace earlier e.pos := by
  intro s
  refine ⟨turn_lines s source, fun r hr => ⟨?_, fun a ha => ?_, fun e he => ?_⟩⟩
  · cases run_ends_in hr with
    | unread _ => exact parse_errors_place source
    | refused | evaluated => exact List.forall_mem_nil _
  · obtain ⟨herrors, hwarnings⟩ := run_analysis_fixed (fun _ => Pos.fixed_besides.mpr) hr ha
    exact ⟨fun e he => Pos.fixed_besides.mp (herrors e he), fun w hw => Pos.fixed_besides.mp (hwarnings w hw)⟩
  · by_cases hfunction : ∃ b ∈ s.values, b.2.kind = .function
    · let P : Pos → Prop := fun q => IsTokenPlace source q ∨ ∃ earlier ∈ sources, IsTokenPlace earlier q
      have hearlier : ∀ earlier ∈ sources, ∀ q, IsTokenPlace earlier q → Pos.Fixed (Pos.besides P) q :=
        fun earlier hmem q hq => Pos.fixed_besides.mpr (.inr ⟨earlier, hmem, hq⟩)
      obtain ⟨-, herrors⟩ := run_fixed (fun q hq => Pos.fixed_besides.mpr (.inl hq)) (after_fixed rfl hearlier) hr
      exact (Pos.fixed_besides.mp (herrors e he)).imp_right fun h => ⟨hfunction, h⟩
    · have hvalues : Value.movedEnv (Pos.besides (IsTokenPlace source)) s.values = s.values :=
        movedEnv_fixed.mpr fun b hb => Value.moved_of_not_function _ fun hkind => hfunction ⟨b, hb, hkind⟩
      obtain ⟨-, herrors⟩ := run_fixed (fun _ => Pos.fixed_besides.mpr) hvalues hr
      exact .inl (Pos.fixed_besides.mp (herrors e he))

/-- An interactive session after a text that declares a function which divides. -/
def divider : Session := (Session.fresh ⟨.plain, false, "", []⟩ "<in>" true {}).after ["let f x =\n  1 / x;;"]

/-- The error stands where the function divides, on the second line of the text that declares it. -/
theorem run_divider :
    ∃ r, run "f 0;;" divider.types divider.values 1000 = .ok r ∧ r.runtimeErrors = [⟨⟨2, 3⟩, .byZero false⟩] := by
  have hrun : (run "f 0;;" divider.types divider.values 1000).toOption.map Run.runtimeErrors =
      some [⟨⟨2, 3⟩, .byZero false⟩] := by decide +kernel
  obtain ⟨r, hr, herrors⟩ := Option.map_eq_some_iff.mp hrun
  exact ⟨r, toOption_eq_some.mp hr, herrors⟩

/-- The text of the function is the earlier one that the error points into. -/
theorem run_points_divider :
    ∃ r, run "f 0;;" divider.types divider.values 1000 = .ok r ∧ r.runtimeErrors ≠ [] ∧
      ∀ e ∈ r.runtimeErrors, IsTokenPlace "f 0;;" e.pos ∨ IsTokenPlace "let f x =\n  1 / x;;" e.pos := by
  obtain ⟨r, hr, herrors⟩ := run_divider
  obtain ⟨-, -, hplaces⟩ :=
    (run_points ⟨.plain, false, "", []⟩ "<in>" true {} ["let f x =\n  1 / x;;"] "f 0;;").2 r hr
  refine ⟨r, hr, herrors ▸ List.cons_ne_nil _ _, fun e he => (hplaces e he).imp_right ?_⟩
  rintro ⟨-, earlier, hmem, hplace⟩
  rwa [List.mem_singleton.mp hmem] at hplace

/-- An error of evaluation can stand at a place that its own text does not have. -/
theorem not_run_points :
    ¬ ∀ (reporter : Reporter) (path : String) (options : Options) (sources : List String) (source : String) (r : Run),
      run source ((Session.fresh reporter path true options).after sources).types
        ((Session.fresh reporter path true options).after sources).values options.limit = .ok r →
      ∀ e ∈ r.runtimeErrors, IsTokenPlace source e.pos := by
  intro h
  obtain ⟨r, hr, herrors⟩ := run_divider
  obtain ⟨t, ht, hpos⟩ := h ⟨.plain, false, "", []⟩ "<in>" {} ["let f x =\n  1 / x;;"] "f 0;;" r hr
    ⟨⟨2, 3⟩, .byZero false⟩ (herrors ▸ List.mem_singleton.mpr rfl)
  have hfirst : ∀ t ∈ tokenize "f 0;;", t.pos.line = 1 := by decide +kernel
  exact absurd ((congrArg Pos.line hpos).symm.trans (hfirst t ht)) (by decide)

end Camlet
