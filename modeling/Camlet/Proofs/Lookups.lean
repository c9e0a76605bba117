import Camlet.Proofs.Names
import Camlet.Proofs.Surroundings

/-
  What the analysis looks up. Whatever else scopes declare, a node is analyzed alike where the names that it
  wants have the same types: it has the same type, or the same fault, and the same warnings. A name that a
  declaration in front has declared is found in the innermost frame, so what the surroundings say of it does
  not matter from then on.
-/

namespace Camlet

open Stateful

/-- Contexts with the given scopes and the same warnings. -/
structure Paired (s s' : Scopes) (c c' : Context) : Prop where
  left : c.scopes = s
  right : c'.scopes = s'
  warnings : c.warnings = c'.warnings

/-- Contexts with the given scopes within one frame more, which is the same and has the names of which `D`
holds, and with the same warnings. -/
def Nested (D : String → Prop) (s s' : Scopes) (c c' : Context) : Prop :=
  ∃ g : Frame, (∀ x, D x → g.has x = true) ∧ Paired (g :: s) (g :: s') c c'

theorem Nested.mono {D D' : String → Prop} {s s' : Scopes} {c c' : Context} (h : Nested D s s' c c')
    (hD : ∀ x, D' x → D x) : Nested D' s s' c c' := by
  obtain ⟨g, hg, hpaired⟩ := h
  exact ⟨g, fun x hx => hg x (hD x hx), hpaired⟩

/-- The names of which `D` holds, and one more, unless that is `_`. -/
def Declaring (D : String → Prop) (x : String) : String → Prop := fun y => D y ∨ y = x ∧ x ≠ "_"

/-- What is wanted inside is one of these names, or it is wanted from outside as well. -/
theorem declaring_of_mem {D Q : String → Prop} {x : String} {ys : List String}
    (h : ∀ y ∈ Node.hidden x ys, D y ∨ Q y) : ∀ y ∈ ys, Declaring D x y ∨ Q y := by
  intro y hy
  by_cases hyx : y = x ∧ x ≠ "_"
  · exact .inl (.inr hyx)
  · have hmem : y ∈ Node.hidden x ys :=
      Node.mem_hidden.mpr ⟨hy, fun heq => Decidable.not_not.mp fun hne => hyx ⟨heq, hne⟩⟩
    exact (h y hmem).imp_left .inl

theorem lookup?_frame {g : Frame} {s s' : Scopes} {x : String}
    (h : g.has x = true ∨ s.lookup? x = s'.lookup? x) :
    Scopes.lookup? (g :: s) x = Scopes.lookup? (g :: s') x := by
  simp only [Scopes.lookup?]
  cases hx : g.get? x with
  | some t => rfl
  | none =>
    rw [Bindings.has, hx] at h
    exact h.resolve_left Bool.false_ne_true

/-! ## Steps of the analysis side by side -/

namespace Check

variable {α β : Type} {s s' : Scopes} {D : String → Prop} {R R' : Context → Context → Prop}
  {P : α → β → Prop} {x : Check α} {y : Check β} {pos : Pos} {z : String} {t : Typing}

theorem matches_refuse {γ δ : Type} {f : TypeFault} {k : γ → Check α} {l : δ → Check β} :
    Matches R (refuse pos f >>= k) (refuse pos f >>= l) P R' R :=
  fun _ _ h => .error h

/-- A step that is refused unless a condition holds. -/
theorem matches_guarded {γ δ : Type} {b : Bool} {f : TypeFault} {k : γ → Check α} {l : δ → Check β}
    (h : b = true → Matches R x y P R' R) :
    Matches R (if b = true then x else refuse pos f >>= k) (if b = true then y else refuse pos f >>= l) P R'
      R := by
  cases b with
  | true => exact h rfl
  | false => exact matches_refuse

theorem matches_within {frame : Frame} (hD : ∀ x, D x → frame.has x = true)
    (h : Matches (Nested D s s') x y P (Nested D s s') (Nested D s s')) :
    Matches (Paired s s') (within frame x) (within frame y) P (Paired s s') (Paired s s') := by
  rintro c c' ⟨rfl, rfl, hw⟩
  have hend := h ⟨frame :: c.scopes, c.warnings⟩ ⟨frame :: c'.scopes, c'.warnings⟩ ⟨frame, hD, rfl, rfl, hw⟩
  unfold within
  generalize x ⟨frame :: c.scopes, c.warnings⟩ = p, y ⟨frame :: c'.scopes, c'.warnings⟩ = q at hend ⊢
  cases hend with
  | ok hab hst =>
    obtain ⟨g, -, hg, hg', hw'⟩ := hst
    exact .ok hab ⟨by rw [hg]; rfl, by rw [hg']; rfl, hw'⟩
  | error hst =>
    obtain ⟨g, -, hg, hg', hw'⟩ := hst
    exact .error ⟨by rw [hg]; rfl, by rw [hg']; rfl, hw'⟩

theorem matches_fresh (h : Matches (Nested (fun _ => False) s s') x y P (Nested (fun _ => False) s s')
      (Nested (fun _ => False) s s')) :
    Matches (Paired s s') (within [] x) (within [] y) P (Paired s s') (Paired s s') :=
  matches_within (fun _ => False.elim) h

theorem matches_nested (h : ∀ g : Frame, (∀ x, D x → g.has x = true) →
      Matches (Paired (g :: s) (g :: s')) x y P (Paired (g :: s) (g :: s')) (Paired (g :: s) (g :: s'))) :
    Matches (Nested D s s') x y P (Nested D s s') (Nested D s s') := by
  rintro c c' ⟨g, hg, hpaired⟩
  exact (h g hg).mono (fun _ _ hst => ⟨g, hg, hst⟩) (fun _ _ hst => ⟨g, hg, hst⟩) c c' hpaired

/-- A name that is declared is in the innermost frame, unless it is `_`; and one that cannot be is there
already. -/
theorem matches_declare :
    Matches (Nested D s s') (declare pos z t) (declare pos z t) (fun _ _ => True)
      (Nested (Declaring D z) s s') (Nested D s s') := by
  rintro c c' ⟨g, hg, hs, hs', hw⟩
  have hdeclare : ∀ u : Scopes, Scopes.declare (g :: u) z t =
      if z = "_" then .ok (g :: u)
      else if g.has z then .error (.alreadyDeclared z) else .ok (g.set z t :: u) := fun _ => rfl
  simp only [declare, get_bind, hs, hs', hdeclare]
  by_cases hz : z = "_"
  · simp only [hz, if_true]
    refine .ok trivial ⟨g, fun x hx => ?_, rfl, rfl, hw⟩
    exact hx.elim (hg x) fun h => absurd rfl h.2
  · cases hopen : g.has z with
    | true =>
      simp only [hz, if_false, if_true]
      exact .error ⟨g, hg, hs, hs', hw⟩
    | false =>
      simp only [hz, if_false, Bool.false_eq_true]
      refine .ok trivial ⟨g.set z t, fun x hx => ?_, rfl, rfl, hw⟩
      rw [Bindings.has, Bindings.get?_set]
      split
      · rfl
      next hne => exact hx.elim (hg x) fun h => absurd h.1.symm hne

/-- What follows a declaration has one name more in the innermost frame. -/
theorem matches_declared (h : Matches (Nested (Declaring D z) s s') x y P (Nested (Declaring D z) s s')
      (Nested (Declaring D z) s s')) :
    Matches (Nested D s s') (declare pos z t >>= fun _ => x) (declare pos z t >>= fun _ => y) P (Nested D s s')
      (Nested D s s') :=
  matches_declare.bind fun _ _ _ =>
    h.mono (fun _ _ hst => hst.mono fun _ => .inl) fun _ _ hst => hst.mono fun _ => .inl

theorem matches_assign :
    Matches (Nested D s s') (assign z t) (assign z t) (fun _ _ => True) (Nested D s s') (Nested D s s') := by
  rintro c c' ⟨g, hg, hs, hs', hw⟩
  refine .ok trivial ⟨g.set z t, fun x hx => ?_, congrArg (Scopes.assign · z t) hs,
    congrArg (Scopes.assign · z t) hs', hw⟩
  rw [Bindings.has, Bindings.get?_set]
  split
  · rfl
  · exact hg x hx

theorem matches_lookup (h : s.lookup? z = s'.lookup? z) :
    Matches (Paired s s') (lookup pos z) (lookup pos z) Eq (Paired s s') (Paired s s') := by
  rintro c c' ⟨rfl, rfl, hw⟩
  simp only [lookup, get_bind, Scopes.lookup, h]
  cases c'.scopes.lookup? z with
  | some t => exact .ok rfl ⟨rfl, rfl, hw⟩
  | none => exact .error ⟨rfl, rfl, hw⟩

theorem matches_warn {w : Warning} :
    Matches (Paired s s') (warn pos w) (warn pos w) (fun _ _ => True) (Paired s s') (Paired s s') :=
  fun _ _ ⟨hs, hs', hw⟩ => .ok trivial ⟨hs, hs', congrArg (⟨pos, w⟩ :: ·) hw⟩

end Check

/-! ## One lemma for each rule -/

namespace Infer

open Check

/-- The step ends in the same way in the two scopes, and leaves them as they were. -/
abbrev Alike (s s' : Scopes) (x : Check Typing) : Prop :=
  Matches (Paired s s') x x Eq (Paired s s') (Paired s s')

/-- A node is analyzed alike in scopes where the names that it wants have the same types. -/
def Steady (sub : Node → Check Typing) (e : Node) : Prop :=
  ∀ s s', (∀ x ∈ e.wanted, Scopes.lookup? s x = Scopes.lookup? s' x) → Alike s s' (sub e)

variable {sub : Node → Check Typing} {s s' : Scopes} {D : String → Prop} {pos : Pos}

theorem Steady.nested {e : Node} (he : Steady sub e)
    (h : ∀ x ∈ e.wanted, D x ∨ s.lookup? x = s'.lookup? x) :
    Matches (Nested D s s') (sub e) (sub e) Eq (Nested D s s') (Nested D s s') :=
  matches_nested fun _ hg => he _ _ fun x hx => lookup?_frame ((h x hx).imp_left (hg x))

/-- A body is analyzed in scopes in which one name more is declared. -/
theorem matches_scoped {x : String} {t : Typing} {b : Node} (hb : Steady sub b)
    (h : ∀ y ∈ Node.hidden x b.wanted, D y ∨ s.lookup? y = s'.lookup? y) :
    Matches (Nested D s s') (declare pos x t >>= fun _ => sub b) (declare pos x t >>= fun _ => sub b) Eq
      (Nested D s s') (Nested D s s') :=
  matches_declared (hb.nested (declaring_of_mem h))

theorem matches_letIn {x : String} {v b : Node} {r : Bool} (hv : Steady sub v) (hb : Steady sub b)
    (h : ∀ y ∈ Node.wanted (.letIn pos x v b r), s.lookup? y = s'.lookup? y) :
    Alike s s' (letIn sub pos x v b r) := by
  rw [Node.wanted, List.forall_mem_append] at h
  obtain ⟨hvw, hbw⟩ := h
  refine matches_fresh ?_
  cases r with
  | false =>
    refine (hv.nested fun y hy => .inr (hvw y hy)).bind fun t t' ht => ?_
    subst ht
    exact matches_scoped hb fun y hy => .inr (hbw y hy)
  | true =>
    refine matches_declared ?_
    refine (hv.nested (declaring_of_mem fun y hy => .inr (hvw y hy))).bind fun t t' ht => ?_
    subst ht
    exact matches_assign.bind fun _ _ _ => hb.nested (declaring_of_mem fun y hy => .inr (hbw y hy))

theorem matches_cond {n m k : Node} (hn : Steady sub n) (hm : Steady sub m) (hk : Steady sub k)
    (h : ∀ y ∈ Node.wanted (.cond pos n m k), s.lookup? y = s'.lookup? y) :
    Alike s s' (Infer.cond sub pos n m k) := by
  rw [Node.wanted, List.forall_mem_append, List.forall_mem_append] at h
  obtain ⟨⟨hnw, hmw⟩, hkw⟩ := h
  refine (hn s s' hnw).bind fun t t' ht => ?_
  subst ht
  refine matches_guarded fun _ => (hm s s' hmw).bind fun tm tm' htm => (hk s s' hkw).bind fun tk tk' htk => ?_
  subst htm htk
  exact matches_guarded fun _ => matches_pure rfl

theorem matches_lambda {p : String} {b : Node} (hb : Steady sub b)
    (h : ∀ y ∈ Node.wanted (.lambda pos p b), s.lookup? y = s'.lookup? y) :
    Alike s s' (lambda sub pos p b) := by
  refine matches_fresh (matches_declared ?_)
  refine (hb.nested (declaring_of_mem fun y hy => .inr (h y hy))).bind fun t t' ht => ?_
  subst ht
  exact matches_pure rfl

theorem matches_apply {f a : Node} (hf : Steady sub f) (ha : Steady sub a)
    (h : ∀ y ∈ Node.wanted (.apply pos f a), s.lookup? y = s'.lookup? y) :
    Alike s s' (apply sub pos f a) := by
  rw [Node.wanted, List.forall_mem_append] at h
  refine (hf s s' h.1).bind fun t t' ht => (ha s s' h.2).bind fun _ _ _ => ?_
  subst ht
  cases t with
  | none => exact matches_throw
  | some t =>
    dsimp only
    split
    · exact matches_pure rfl
    · split
      · exact matches_pure rfl
      · exact matches_throw

theorem matches_operand {R : Context → Context → Prop} {fits : Typing → Bool}
    {fault : String → String → TypeFault} {n : Node} {t : Typing} :
    Matches R (operand fits fault n t) (operand fits fault n t) (fun _ _ => True) R R := by
  unfold operand
  cases fits t with
  | true => exact matches_pure trivial
  | false => exact matches_throw

theorem matches_binary {o : String} {l r : Node} (hl : Steady sub l) (hr : Steady sub r)
    (h : ∀ y ∈ Node.wanted (.binary pos o l r), s.lookup? y = s'.lookup? y) :
    Alike s s' (binary sub pos o l r) := by
  rw [Node.wanted, List.forall_mem_append] at h
  refine (hl s s' h.1).bind fun tl tl' htl => (hr s s' h.2).bind fun tr tr' htr => ?_
  subst htl htr
  split
  · exact matches_operand.bind fun _ _ _ => matches_operand.bind fun _ _ _ => matches_pure rfl
  · split
    · exact matches_operand.bind fun _ _ _ => matches_operand.bind fun _ _ _ => matches_pure rfl
    · refine matches_operand.bind fun _ _ _ => matches_operand.bind fun _ _ _ => matches_guarded fun _ => ?_
      split
      · exact matches_pure rfl
      · split
        · exact matches_pure rfl
        · exact matches_throw

theorem matches_unary {o : String} {e : Node} (he : Steady sub e)
    (h : ∀ y ∈ e.wanted, s.lookup? y = s'.lookup? y) : Alike s s' (unary sub pos o e) := by
  refine (he s s' h).bind fun t t' ht => ?_
  subst ht
  split
  · exact matches_guarded fun _ => matches_pure rfl
  · exact matches_guarded fun _ => matches_pure rfl

theorem matches_caseAndRest {before : Typing} {all : Option Node} {p e : Node} {cs : List (Node × Node)}
    (hp : IsPattern p) (he : Steady sub e) (h : ∀ y ∈ p.hiddenCase e.wanted, s.lookup? y = s'.lookup? y)
    (hcs : ∀ before all, Alike s s' (cases sub before all cs)) :
    Alike s s' (caseAndRest sub before all p e cs) := by
  refine Matches.bind (?_ : Alike s s' _) fun t t' ht => ?_
  · refine matches_fresh ?_
    cases hp with
    | wildcard => exact he.nested fun y hy => .inr (h y hy)
    | bind => exact matches_scoped he fun y hy => .inr (h y hy)
  · subst ht
    dsimp only
    by_cases hbad : (before.isSome && !before.compatible t) = true
    · rw [if_pos hbad]
      exact matches_refuse
    · rw [if_neg hbad]
      exact hcs _ _

theorem matches_cases {before : Typing} {all : Option Node} {cs : List (Node × Node)}
    (hp : ∀ c ∈ cs, IsPattern c.1) (he : ∀ c ∈ cs, Steady sub c.2)
    (h : ∀ y ∈ Node.casesWanted cs, s.lookup? y = s'.lookup? y) :
    Alike s s' (cases sub before all cs) := by
  induction cs generalizing before all with
  | nil => exact matches_pure rfl
  | cons c cs ih =>
    obtain ⟨p, e⟩ := c
    obtain ⟨hp, hps⟩ := List.forall_mem_cons.mp hp
    obtain ⟨he, hes⟩ := List.forall_mem_cons.mp he
    rw [Node.casesWanted, List.forall_mem_append] at h
    obtain ⟨hw, hws⟩ := h
    have hstep : ∀ all, Alike s s' (caseAndRest sub before all p e cs) := fun _ =>
      matches_caseAndRest hp he hw fun _ _ => ih hps hes hws
    cases all with
    | none => exact hstep none
    | some q => exact matches_warn.bind fun _ _ _ => hstep (some q)

theorem matches_matching {n : Node} {cs : List (Node × Node)} (hn : Steady sub n)
    (hp : ∀ c ∈ cs, IsPattern c.1) (he : ∀ c ∈ cs, Steady sub c.2)
    (h : ∀ y ∈ Node.wanted (.matching pos n cs), s.lookup? y = s'.lookup? y) :
    Alike s s' (matching sub n cs) := by
  rw [Node.wanted, List.forall_mem_append] at h
  exact (hn s s' h.1).bind fun _ _ _ => matches_cases hp he h.2

end Infer

/-- Expressions are analyzed alike in scopes where the names that they want have the same types. -/
theorem infer_steady (depth : Nat) {e : Node} (he : IsExpression e) : Infer.Steady (infer depth) e := by
  induction depth generalizing e with
  | zero => exact fun _ _ _ => matches_throw
  | succ depth ih =>
    intro s s' h
    cases he with
    | letIn pos x hv _ hb => exact Infer.matches_letIn (ih hv) (ih hb) h
    | cond pos hc ht he => exact Infer.matches_cond (ih hc) (ih ht) (ih he) h
    | matching pos hs _ hp he => exact Infer.matches_matching (ih hs) hp (fun c hc => ih (he c hc)) h
    | lambda pos p hb => exact Infer.matches_lambda (ih hb) h
    | apply pos hf ha => exact Infer.matches_apply (ih hf) (ih ha) h
    | binary pos o hl hr => exact Infer.matches_binary (ih hl) (ih hr) h
    | unary pos o he => exact Infer.matches_unary (ih he) h
    | intLit | floatLit | stringLit | charLit => exact matches_pure rfl
    | ident pos x => exact Check.matches_lookup (h x (List.mem_singleton.mpr rfl))

/-! ## Declarations -/

/-- What is wanted inside of several bound names is one of them, or it is wanted from outside as well. -/
theorem declaring_of_foldr {D Q : String → Prop} {ps : List String} {ys : List String}
    (h : ∀ y ∈ ps.foldr Node.hidden ys, D y ∨ Q y) : ∀ y ∈ ys, ps.foldl Declaring D y ∨ Q y := by
  induction ps generalizing D with
  | nil => exact h
  | cons p ps ih => exact ih (declaring_of_mem h)

namespace Infer

open Check

variable {sub : Node → Check Typing} {s s' : Scopes} {D : String → Prop} {pos : Pos}

/-- What follows the declaration of parameters has them in the innermost frame. -/
theorem matches_params {ps : List String} {x : Check Typing}
    (h : Matches (Nested (ps.foldl Declaring D) s s') x x Eq (Nested (ps.foldl Declaring D) s s')
      (Nested (ps.foldl Declaring D) s s')) :
    Matches (Nested D s s') (params pos ps >>= fun _ => x) (params pos ps >>= fun _ => x) Eq (Nested D s s')
      (Nested D s s') := by
  induction ps generalizing D with
  | nil => exact h
  | cons p ps ih =>
    rw [params, bind_assoc]
    exact matches_declared (ih h)

theorem matches_funBody {f : String} {ps : List String} {b : Node} {r : Bool} (hb : Steady sub b)
    (h : ∀ y ∈ Node.wanted (.funDecl pos f ps b r), s.lookup? y = s'.lookup? y) :
    Alike s s' (within (if r then [(f, some .anyFunction)] else [])
      (within [] (params pos ps >>= fun _ => sub b))) := by
  have hframe : ∀ y, r = true ∧ y = f →
      Bindings.has (if r then [(f, (some .anyFunction : Typing))] else []) y = true := by
    rintro y ⟨rfl, rfl⟩
    simp [Bindings.has, Bindings.get?]
  refine matches_within hframe (matches_nested fun g hg => matches_fresh (matches_params (hb.nested ?_)))
  refine declaring_of_foldr fun y hy => .inr (lookup?_frame ?_)
  by_cases hf : r = true ∧ y = f
  · exact .inl (hg y hf)
  · refine .inr (h y ?_)
    cases r with
    | false => exact hy
    | true => exact Node.mem_hidden.mpr ⟨hy, fun heq => absurd ⟨rfl, heq⟩ hf⟩

end Infer

/-- A declaration is analyzed alike where the names that it wants have the same types, and from then on the
name that it declares has the same type. -/
theorem matches_declaration (depth : Nat) {d : Node} (hd : IsDeclaration d) {s s' : Scopes}
    {D : String → Prop} (h : ∀ y ∈ d.wanted, D y ∨ s.lookup? y = s'.lookup? y) :
    Matches (Nested D s s') (infer depth d) (infer depth d) Eq
      (Nested (fun y => D y ∨ d.declared? = some y ∧ y ≠ "_") s s') (Nested D s s') := by
  have hdeclare : ∀ {pos x t}, Matches (Nested D s s')
      (Check.declare pos x t >>= fun _ => pure t) (Check.declare pos x t >>= fun _ => pure t) Eq
      (Nested (fun y => D y ∨ some x = some y ∧ y ≠ "_") s s') (Nested D s s') := by
    intro pos x t
    refine Check.matches_declare.bind fun _ _ _ => ?_
    refine (matches_pure rfl).mono (fun _ _ hst => hst.mono fun y hy => ?_) fun _ _ hst => hst
    exact hy.imp_right fun ⟨hxy, hne⟩ => ⟨(Option.some_inj.mp hxy).symm, Option.some_inj.mp hxy ▸ hne⟩
  cases depth with
  | zero => exact matches_throw
  | succ depth =>
    cases hd with
    | letDecl pos x hv =>
      refine ((infer_steady depth hv).nested h).bind fun t t' ht => ?_
      subst ht
      exact hdeclare
    | funDecl pos f p ps r hb =>
      have hbody := Check.matches_nested (D := D) fun g hg =>
        Infer.matches_funBody (infer_steady depth hb) fun y hy => lookup?_frame ((h y hy).imp_left (hg y))
      refine hbody.bind fun t t' ht => ?_
      subst ht
      exact hdeclare
    | exprStmt pos he =>
      refine ((infer_steady depth he).nested h).mono (fun _ _ hst => hst.mono fun y hy => ?_) fun _ _ hst => hst
      exact hy.resolve_right fun hnone => absurd hnone.1 (Option.some_ne_none y).symm

/-- The fault that is reported for a declaration which is left at a place. -/
def Refusal.blame (pos : Pos) : Refusal → Except Crash (Located TypeFault)
  | .fault f => .ok f
  | .tooDeep => .ok ⟨pos, .tooDeep⟩
  | .crash e => .error e

section

variable {depth : Nat} {c c₁ : Context} {d : Node} {ds before : List Node} {name y : String} {t : Typing}
  {e : Refusal}

theorem declarations_passed (hinfer : infer depth d c = .ok t c₁) (hname : d.name? = some name) :
    Analysis.declarations depth c (d :: ds) =
      Analysis.declarations depth c₁ ds >>= fun q => pure ((name, t) :: q.1, q.2) := by
  simp only [Analysis.declarations, hinfer, hname]

theorem declarations_refused (hinfer : infer depth d c = .error e c₁) :
    Analysis.declarations depth c (d :: ds) =
      e.blame d.pos >>= fun f => Analysis.declarations depth c₁ ds >>= fun q => pure (q.1, f :: q.2.1, q.2.2) := by
  cases e <;> simp only [Analysis.declarations, hinfer] <;> rfl

/-- A declaration of `y` is behind: the analysis of the declarations in front has passed one. It is named by
neither `_`, which is never declared, nor `-`, under which expressions are. -/
structure Redeclared (depth : Nat) (c : Context) (before : List Node) (y : String) : Prop where
  underscore : y ≠ "_"
  dash : y ≠ "-"
  passed : ∀ bs fs ws, Analysis.declarations depth c before = .ok (bs, fs, ws) → Bindings.has bs y = true

namespace Redeclared

theorem not_nil : ¬ Redeclared depth c [] y :=
  fun h => absurd (h.passed [] [] c.warnings rfl) nofun

theorem step_passed (h : Redeclared depth c (d :: before) y) (hinfer : infer depth d c = .ok t c₁)
    (hname : d.name? = some name) (hne : name ≠ y) : Redeclared depth c₁ before y := by
  refine ⟨h.underscore, h.dash, fun bs fs ws hbefore => ?_⟩
  have hhas := h.passed ((name, t) :: bs) fs ws (by rw [declarations_passed hinfer hname, hbefore]; rfl)
  rwa [Bindings.has, Bindings.get?, if_neg hne] at hhas

theorem step_refused (h : Redeclared depth c (d :: before) y) (hinfer : infer depth d c = .error e c₁)
    {f : Located TypeFault} (hf : e.blame d.pos = .ok f) : Redeclared depth c₁ before y := by
  refine ⟨h.underscore, h.dash, fun bs fs ws hbefore => ?_⟩
  exact h.passed bs (f :: fs) ws (by rw [declarations_refused hinfer, hf, hbefore]; rfl)

end Redeclared

end

/-- Declarations are analyzed alike in surroundings that give the names which a declaration wants the same
types, but for those that were declared in front of it. -/
theorem declarations_alike {depth : Nat} {ds : List Node} (hds : ∀ d ∈ ds, IsDeclaration d) {s s' : Scopes}
    {D : String → Prop} {c c' : Context} (hc : Nested D s s' c c')
    (h : ∀ before d after, ds = before ++ d :: after → ∀ y ∈ d.wanted,
      (D y ∨ s.lookup? y = s'.lookup? y) ∨ Redeclared depth c before y) :
    Analysis.declarations depth c ds = Analysis.declarations depth c' ds := by
  induction ds generalizing D c c' with
  | nil =>
    obtain ⟨g, -, hpaired⟩ := hc
    simp only [Analysis.declarations, hpaired.warnings]
  | cons d ds ih =>
    obtain ⟨hd, hds⟩ := List.forall_mem_cons.mp hds
    have hwanted : ∀ y ∈ d.wanted, D y ∨ s.lookup? y = s'.lookup? y := fun y hy =>
      (h [] d ds rfl y hy).resolve_right Redeclared.not_nil
    have hend := matches_declaration depth hd hwanted c c' hc
    have hlater : ∀ (before : List Node) e after, ds = before ++ e :: after → ∀ y ∈ e.wanted,
        (D y ∨ s.lookup? y = s'.lookup? y) ∨ Redeclared depth c (d :: before) y :=
      fun before e after hsplit => h (d :: before) e after (congrArg (d :: ·) hsplit)
    generalize hinfer : infer depth d c = r, hinfer' : infer depth d c' = r' at hend
    cases hend with
    | @ok t t' c₁ c₁' ht hc₁ =>
      subst ht
      cases hname : d.name? with
      | none => simp only [Analysis.declarations, hinfer, hinfer', hname]
      | some name =>
        rw [declarations_passed hinfer hname, declarations_passed hinfer' hname]
        rw [ih hds hc₁ fun before e after hsplit y hy => ?_]
        rcases hlater before e after hsplit y hy with hy | hred
        · exact .inl (hy.imp_left .inl)
        · by_cases hyx : name = y
          · exact .inl (.inl (.inr ⟨(hd.declared?_iff hname hred.dash).mpr hyx, hred.underscore⟩))
          · exact .inr (hred.step_passed hinfer hname hyx)
    | @error e c₁ c₁' hc₁ =>
      rw [declarations_refused hinfer, declarations_refused hinfer']
      cases hf : e.blame d.pos with
      | error crash => rfl
      | ok f =>
        rw [ih hds hc₁ fun before e after hsplit y hy => ?_]
        exact (hlater before e after hsplit y hy).imp_right fun hred => hred.step_refused hinfer hf

/-- A program is analyzed alike in surroundings that give the names which its declarations want the same
types, but for those that were declared in front. -/
theorem analyze_alike {body : List Node} (hds : ∀ d ∈ body, IsDeclaration d) {types types' : Frame}
    (h : ∀ before d after, body = before ++ d :: after → ∀ y ∈ d.wanted,
      types.get? y = types'.get? y ∨ Redeclared analysisDepth ⟨.ofSeed types, []⟩ before y) :
    analyze body types = analyze body types' := by
  have hseed : ∀ ts : Frame, ∃ s : Scopes, Scopes.ofSeed ts = [] :: s ∧ ∀ y, s.lookup? y = ts.get? y := by
    intro ts
    cases ts with
    | nil => exact ⟨[], rfl, fun _ => rfl⟩
    | cons e ts =>
      refine ⟨[e :: ts], rfl, fun y => ?_⟩
      simp only [Scopes.lookup?]
      cases Bindings.get? (e :: ts) y <;> rfl
  obtain ⟨s, hs, hlookup⟩ := hseed types
  obtain ⟨s', hs', hlookup'⟩ := hseed types'
  have hc : Nested (fun _ => False) s s' ⟨.ofSeed types, []⟩ ⟨.ofSeed types', []⟩ :=
    ⟨[], fun _ => False.elim, hs, hs', rfl⟩
  have hdecls := declarations_alike hds hc fun before d after hsplit y hy =>
    (h before d after hsplit y hy).imp_left fun heq => .inr (by rw [hlookup, hlookup', heq])
  rw [analyze, analyze, analyzeWithin, analyzeWithin, hdecls]

end Camlet
