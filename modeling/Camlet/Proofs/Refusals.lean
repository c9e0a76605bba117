import Camlet.Proofs.Inference

/-
  What the analysis refuses. Given a tree that was read, in scopes that give every name a type, each rule
  of the analysis comes to a type, or it leaves the declaration with a fault that such a tree can have, and
  the scopes still give every name a type. So the analysis never crashes, and it never finds a node or an
  operator that it has no rule for.
-/

namespace Camlet

open Stateful

/-- Every name of a frame has a type. -/
def Frame.Typed (f : Frame) : Prop := ∀ x, f.get? x ≠ some none

/-- Every name of every frame has a type. -/
def Scopes.Typed (s : Scopes) : Prop := ∀ f ∈ s, f.Typed

/-- A fault of meaning that a program can have which was read. -/
def TypeFault.Expected : TypeFault → Prop
  | .notAnalyzable _ | .unknownOperator _ => False
  | _ => True

/-- A refusal that is reported as a fault of the declaration. -/
def Refusal.Reported : Refusal → Prop
  | .fault f => f.val.Expected
  | .tooDeep => True
  | .crash _ => False

theorem Frame.Typed.set {f : Frame} (h : f.Typed) (x : String) {t : Typing} (ht : t.isSome = true) :
    Frame.Typed (f.set x t) := by
  intro y hy
  rw [Bindings.get?_set] at hy
  split at hy
  · cases hy
    cases ht
  · exact h y hy

theorem Frame.typed_nil : Frame.Typed [] := fun _ h => by cases h

theorem Scopes.Typed.assign {s : Scopes} (h : s.Typed) (x : String) {t : Typing} (ht : t.isSome = true) :
    (s.assign x t).Typed := by
  cases s with
  | nil => exact List.forall_mem_singleton.mpr (Frame.typed_nil.set x ht)
  | cons f s =>
    obtain ⟨hf, hs⟩ := List.forall_mem_cons.mp h
    exact List.forall_mem_cons.mpr ⟨hf.set x ht, hs⟩

theorem Scopes.Typed.lookup? {s : Scopes} (h : s.Typed) {x : String} {t : Typing}
    (hx : s.lookup? x = some t) : t.isSome = true := by
  induction s with
  | nil => cases hx
  | cons f s ih =>
    obtain ⟨hf, hs⟩ := List.forall_mem_cons.mp h
    rw [Scopes.lookup?] at hx
    split at hx
    next t' ht =>
      cases hx
      cases t with
      | none => exact absurd ht (hf x)
      | some => rfl
    next => exact ih hs hx

theorem Scopes.Typed.declare {s s' : Scopes} (h : s.Typed) {x : String} {t : Typing} (ht : t.isSome = true)
    (hd : s.declare x t = .ok s') : s'.Typed := by
  rcases Scopes.declare_eq_ok.mp hd with ⟨-, rfl⟩ | ⟨-, -, rfl⟩
  · exact h
  · exact h.assign x ht

theorem Scopes.declare_expected {s : Scopes} {x : String} {t : Typing} {f : TypeFault}
    (hd : s.declare x t = .error f) : f.Expected := by
  rw [Scopes.declare] at hd
  split at hd
  · cases hd
  · split at hd
    · cases hd
      trivial
    · cases hd

theorem Scopes.typed_ofSeed {seed : Frame} (h : seed.Typed) : (Scopes.ofSeed seed).Typed := by
  unfold Scopes.ofSeed
  split <;> simp [Scopes.Typed, Frame.typed_nil, h]

/-! ## Steps that answer -/

namespace Check

variable {α β : Type}

/-- In scopes that give every name a type, a step gives a value that satisfies `P` or a reported refusal,
and leaves scopes of that kind. -/
def Answers (x : Check α) (P : α → Prop) : Prop :=
  ∀ c, c.scopes.Typed →
    match x c with
    | .ok a c' => c'.scopes.Typed ∧ P a
    | .error r c' => c'.scopes.Typed ∧ r.Reported

variable {x : Check α} {P : α → Prop} {pos : Pos} {name : String} {t : Typing}

theorem answers_pure {a : α} (h : P a) : Answers (pure a) P := fun _ hc => ⟨hc, h⟩

theorem answers_refuse {f : TypeFault} (h : f.Expected) : Answers (refuse pos f : Check α) P :=
  fun _ hc => ⟨hc, h⟩

theorem Answers.bind {f : α → Check β} {Q : β → Prop} (hx : Answers x P)
    (hf : ∀ a, P a → Answers (f a) Q) : Answers (x >>= f) Q := by
  intro c hc
  have h := hx c hc
  rw [bind_run]
  cases hrun : x c with
  | ok a c' =>
    rw [hrun] at h
    exact hf a h.2 c' h.1
  | error r c' =>
    rw [hrun] at h
    exact h

theorem answers_ite {p : Prop} [Decidable p] {y : Check α} (hx : p → Answers x P)
    (hy : ¬ p → Answers y P) : Answers (if p then x else y) P := by
  split
  next h => exact hx h
  next h => exact hy h

/-- A step that refuses unless a condition holds. -/
theorem answers_unless {b : Bool} {f : TypeFault} {k : Unit → Check α} (hf : f.Expected)
    (hx : Answers x P) : Answers (if b = true then x else refuse pos f >>= k) P :=
  answers_ite (fun _ => hx) fun _ => (answers_refuse (P := fun _ => False) hf).bind fun _ h => h.elim

theorem answers_within {frame : Frame} (hframe : frame.Typed) (hx : Answers x P) :
    Answers (within frame x) P := by
  intro c hc
  have h := hx { c with scopes := frame :: c.scopes } (List.forall_mem_cons.mpr ⟨hframe, hc⟩)
  rw [within]
  cases hrun : x { c with scopes := frame :: c.scopes } with
  | ok a c' =>
    rw [hrun] at h
    exact ⟨fun f hf => h.1 f (List.mem_of_mem_tail hf), h.2⟩
  | error r c' =>
    rw [hrun] at h
    exact ⟨fun f hf => h.1 f (List.mem_of_mem_tail hf), h.2⟩

theorem answers_declare (ht : t.isSome = true) : Answers (declare pos name t) fun _ => True := by
  intro c hc
  rw [declare, get_bind]
  cases hd : c.scopes.declare name t with
  | ok s => exact ⟨hc.declare ht hd, trivial⟩
  | error f => exact ⟨hc, Scopes.declare_expected hd⟩

theorem answers_assign (ht : t.isSome = true) : Answers (assign name t) fun _ => True :=
  fun _ hc => ⟨hc.assign name ht, trivial⟩

theorem answers_warn {w : Warning} : Answers (warn pos w) fun _ => True := fun _ hc => ⟨hc, trivial⟩

theorem answers_lookup : Answers (lookup pos name) fun t => t.isSome = true := by
  intro c hc
  rw [lookup, get_bind, Scopes.lookup]
  cases hx : c.scopes.lookup? name with
  | some t => exact ⟨hc, hc.lookup? hx⟩
  | none => exact ⟨hc, trivial⟩

end Check

/-! ## One lemma for each rule -/

namespace Infer

open Check

/-- A step that gives a type. -/
abbrev Types (x : Check Typing) : Prop := x.Answers fun t => t.isSome = true

variable {sub : Node → Check Typing} {pos : Pos}

theorem types_letDecl {x : String} {v : Node} (hv : Types (sub v)) : Types (letDecl sub pos x v) :=
  hv.bind fun _ ht => (answers_declare ht).bind fun _ _ => answers_pure ht

theorem answers_params (pos : Pos) (ps : List String) : (params pos ps).Answers fun _ => True := by
  induction ps with
  | nil => exact answers_pure trivial
  | cons p ps ih => exact (answers_declare rfl).bind fun _ _ => ih

theorem isSome_functions (ps : List String) {t : Typing} (ht : t.isSome = true) :
    (ps.foldl (fun (t : Typing) _ => some t.function) t).isSome = true := by
  induction ps generalizing t with
  | nil => exact ht
  | cons p ps ih => exact ih rfl

theorem types_funDecl {f : String} {ps : List String} {b : Node} {r : Bool} (hb : Types (sub b)) :
    Types (funDecl sub pos f ps b r) := by
  have hown : Frame.Typed (if r then [(f, some .anyFunction)] else []) := by
    cases r with
    | false => exact Frame.typed_nil
    | true => exact Frame.typed_nil.set f rfl
  have hbody := answers_within Frame.typed_nil ((answers_params pos ps).bind fun _ _ => hb)
  refine (answers_within hown hbody).bind fun t ht => ?_
  have ht' := isSome_functions ps ht
  exact (answers_declare ht').bind fun _ _ => answers_pure ht'

theorem types_letIn {x : String} {v b : Node} {r : Bool} (hv : Types (sub v)) (hb : Types (sub b)) :
    Types (letIn sub pos x v b r) := by
  refine answers_within Frame.typed_nil ?_
  cases r with
  | false =>
    exact hv.bind fun t ht => (answers_declare ht).bind fun _ _ => hb
  | true =>
    exact (answers_declare rfl).bind fun _ _ => hv.bind fun t ht => (answers_assign ht).bind fun _ _ => hb

theorem isSome_unify {t u : Typing} (ht : t.isSome = true) (hu : u.isSome = true) :
    (t.unify u).isSome = true := by
  rw [Typing.unify]
  split
  · exact hu
  · exact ht

theorem types_cond {c t e : Node} (hc : Types (sub c)) (ht : Types (sub t)) (he : Types (sub e)) :
    Types (cond sub pos c t e) := by
  refine hc.bind fun _ _ => answers_unless trivial ?_
  exact ht.bind fun _ ht => he.bind fun _ he => answers_unless trivial (answers_pure (isSome_unify ht he))

theorem types_caseBody {p e : Node} (hp : IsPattern p) (he : Types (sub e)) : Types (caseBody sub p e) := by
  refine answers_within Frame.typed_nil ?_
  cases hp with
  | wildcard => exact he
  | bind => exact (answers_declare rfl).bind fun _ _ => he

theorem types_cases {before : Typing} {all : Option Node} {cs : List (Node × Node)}
    (hcs : ∀ c ∈ cs, IsPattern c.1) (he : ∀ c ∈ cs, Types (sub c.2))
    (hbefore : before.isSome = true ∨ cs ≠ []) : Types (cases sub before all cs) := by
  induction cs generalizing before all with
  | nil => exact answers_pure (hbefore.resolve_right fun h => h rfl)
  | cons c cs ih =>
    obtain ⟨p, e⟩ := c
    have hp := hcs _ (List.mem_cons_self ..)
    have he' : Types (sub e) := he _ (List.mem_cons_self ..)
    have hcs' : ∀ c ∈ cs, IsPattern c.1 := fun c hc => hcs c (List.mem_cons_of_mem _ hc)
    have hsub : ∀ c ∈ cs, Types (sub c.2) := fun c hc => he c (List.mem_cons_of_mem _ hc)
    have hrest : ∀ {t}, t.isSome = true → ∀ all, Types (do
        if before.isSome && !before.compatible t then refuse e.pos (.cases before.name t.name)
        cases sub (before.join t) all cs) := by
      intro t ht all
      have hjoin : (before.join t).isSome = true := by
        unfold Typing.join
        split
        next hb => exact isSome_unify hb ht
        next => exact ht
      refine answers_ite (fun _ => ?_) fun _ => ih hcs' hsub (.inl hjoin)
      refine (answers_refuse (P := fun _ => False) ?_).bind fun _ h => h.elim
      trivial
    have hcase : ∀ all, Types (caseBody sub p e >>= fun t => do
        if before.isSome && !before.compatible t then refuse e.pos (.cases before.name t.name)
        cases sub (before.join t) all cs) :=
      fun all => (types_caseBody hp he').bind fun _ ht => hrest ht all
    rw [cases.eq_def]
    cases all with
    | none => exact hcase _
    | some q => exact answers_warn.bind fun _ _ => hcase _

theorem types_matching {s : Node} {cs : List (Node × Node)} (hs : Types (sub s)) (hne : cs ≠ [])
    (hcs : ∀ c ∈ cs, IsPattern c.1) (he : ∀ c ∈ cs, Types (sub c.2)) : Types (matching sub s cs) :=
  hs.bind fun _ _ => types_cases hcs he (.inr hne)

theorem types_lambda {p : String} {b : Node} (hb : Types (sub b)) : Types (lambda sub pos p b) :=
  answers_within Frame.typed_nil ((answers_declare rfl).bind fun _ _ => hb.bind fun _ _ => answers_pure rfl)

theorem types_apply {f a : Node} (hf : Types (sub f)) (ha : Types (sub a)) :
    Types (apply sub pos f a) := by
  refine hf.bind fun tf htf => ha.bind fun _ _ => ?_
  cases tf with
  | none => cases htf
  | some t =>
    refine answers_ite (fun _ => answers_pure rfl) fun _ => ?_
    exact answers_ite (fun _ => answers_pure rfl) fun _ => answers_refuse trivial

theorem answers_operand {fits : Typing → Bool} {fault : String → String → TypeFault} {n : Node} {t : Typing}
    (h : ∀ a b, (fault a b).Expected) : (operand fits fault n t).Answers fun _ => True :=
  answers_ite (fun _ => answers_pure trivial) fun _ => answers_refuse (h _ _)

/-- Both operands are checked before the operator has a type. -/
theorem types_operands {fits : Typing → Bool} {fault : String → String → TypeFault} {l r : Node}
    {tl tr : Typing} {x : Check Typing} (h : ∀ a b, (fault a b).Expected) (hx : Types x) :
    Types (operand fits fault l tl >>= fun _ => operand fits fault r tr >>= fun _ => x) :=
  (answers_operand h).bind fun _ _ => (answers_operand h).bind fun _ _ => hx

theorem types_binary {o : String} {l r : Node} (ho : o ∈ operatorNames) (hl : Types (sub l))
    (hr : Types (sub r)) : Types (binary sub pos o l r) := by
  refine hl.bind fun tl _ => hr.bind fun tr _ => ?_
  refine answers_ite (fun _ => ?_) fun hlogical => answers_ite (fun _ => ?_) fun hfloat => ?_
  · refine types_operands ?_ (answers_pure rfl)
    exact fun _ _ => trivial
  · refine types_operands ?_ (answers_pure rfl)
    exact fun _ _ => trivial
  · refine types_operands ?_ (answers_unless trivial (answers_ite (fun _ => answers_pure rfl) fun hcomparison =>
      answers_ite (fun _ => answers_pure rfl) fun harithmetic => ?_))
    · exact fun _ _ => trivial
    · have hknown := operatorNames_known o ho
      simp only [List.contains_iff_mem] at hlogical hfloat hcomparison harithmetic
      simp only [hlogical, hfloat, hcomparison, harithmetic, or_self] at hknown

theorem types_unary {o : String} {e : Node} (he : Types (sub e)) : Types (unary sub pos o e) := by
  refine he.bind fun t ht => answers_ite (fun _ => ?_) fun _ => ?_
  · exact answers_unless trivial (answers_pure rfl)
  · refine answers_unless trivial (answers_pure ?_)
    split
    · rfl
    · exact ht

end Infer

open Check Infer

/-- A tree that was read has a type, or it is refused with a fault that such a tree can have. -/
theorem infer_types (depth : Nat) {e : Node} (he : IsExpression e) : Types (infer depth e) := by
  induction depth generalizing e with
  | zero => exact fun _ hc => ⟨hc, trivial⟩
  | succ depth ih =>
    cases he with
    | letIn pos x hv _ hb => exact types_letIn (ih hv) (ih hb)
    | cond pos hc ht he => exact types_cond (ih hc) (ih ht) (ih he)
    | matching pos hs hne hp he => exact types_matching (ih hs) hne hp fun c hc => ih (he c hc)
    | lambda pos p hb => exact types_lambda (ih hb)
    | apply pos hf ha => exact types_apply (ih hf) (ih ha)
    | binary pos o hl hr ho => exact types_binary ho (ih hl) (ih hr)
    | unary pos o he => exact types_unary (ih he)
    | intLit | floatLit | stringLit | charLit => exact answers_pure rfl
    | ident pos x => exact answers_lookup

theorem infer_declaration_types (depth : Nat) {d : Node} (hd : IsDeclaration d) : Types (infer depth d) := by
  cases depth with
  | zero => exact fun _ hc => ⟨hc, trivial⟩
  | succ depth =>
    cases hd with
    | letDecl pos x hv => exact types_letDecl (infer_types depth hv)
    | funDecl pos f p ps r hb => exact types_funDecl (infer_types depth hb)
    | exprStmt pos he => exact infer_types depth he

/-! ## Programs -/

theorem IsDeclaration.name?_isSome {d : Node} (hd : IsDeclaration d) : ∃ x, d.name? = some x := by
  cases hd <;> exact ⟨_, rfl⟩

/-- Declarations that were read are analyzed to the end, and all faults are such as they can have. -/
theorem declarations_typed (depth : Nat) {c : Context} {ds : List Node} (hc : c.scopes.Typed)
    (hds : ∀ d ∈ ds, IsDeclaration d) :
    ∃ bs fs ws, Analysis.declarations depth c ds = .ok (bs, fs, ws) ∧
      (∀ b ∈ bs, b.2.isSome = true) ∧ ∀ f ∈ fs, f.val.Expected := by
  induction ds generalizing c with
  | nil => exact ⟨[], [], _, rfl, List.forall_mem_nil _, List.forall_mem_nil _⟩
  | cons d ds ih =>
    obtain ⟨hd, hds⟩ := List.forall_mem_cons.mp hds
    obtain ⟨name, hname⟩ := hd.name?_isSome
    have h := infer_declaration_types depth hd c hc
    rw [Analysis.declarations]
    cases hrun : infer depth d c with
    | ok t c' =>
      rw [hrun] at h
      obtain ⟨bs, fs, ws, hds', hbs, hfs⟩ := ih h.1 hds
      refine ⟨(name, t) :: bs, fs, ws, ?_, List.forall_mem_cons.mpr ⟨h.2, hbs⟩, hfs⟩
      simp only [hname, hds']
      rfl
    | error r c' =>
      rw [hrun] at h
      obtain ⟨bs, fs, ws, hds', hbs, hfs⟩ := ih h.1 hds
      cases r with
      | fault f =>
        refine ⟨bs, f :: fs, ws, ?_, hbs, List.forall_mem_cons.mpr ⟨h.2, hfs⟩⟩
        simp only [hds']
        rfl
      | tooDeep =>
        refine ⟨bs, ⟨d.pos, .tooDeep⟩ :: fs, ws, ?_, hbs, List.forall_mem_cons.mpr ⟨trivial, hfs⟩⟩
        simp only [hds']
        rfl
      | crash e => exact h.2.elim

theorem analyze_typed {body : List Node} {types : Frame} (htypes : types.Typed)
    (hbody : ∀ d ∈ body, IsDeclaration d) :
    ∃ a, analyze body types = .ok a ∧ (∀ b ∈ a.bindings, b.2.isSome = true) ∧
      ∀ f ∈ a.errors, f.val.Expected := by
  obtain ⟨bs, fs, ws, h, hbs, hfs⟩ :=
    declarations_typed analysisDepth (c := ⟨.ofSeed types, []⟩) (Scopes.typed_ofSeed htypes) hbody
  refine ⟨⟨bs.getLast?.bind (·.2), bs, fs, ws.reverse⟩, ?_, hbs, hfs⟩
  simp only [analyze, analyzeWithin, h]
  rfl

end Camlet
