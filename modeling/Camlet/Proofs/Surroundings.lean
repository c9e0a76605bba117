import Camlet.Proofs.Inference
import Camlet.Proofs.Places

/-
  Analysis in other surroundings. What passes the analysis in some scopes passes it, with the same types,
  at other places and in scopes that can replace those: they give every name that is declared there the
  same type, and leave every name open that is open there. So the declarations of a program may as well be
  analyzed in surroundings that declare the names of those in front.
-/

namespace Camlet

open Stateful

/-! ## Scopes that can be replaced -/

theorem Scopes.headD_assign (s : Scopes) (x : String) (t : Typing) :
    (s.assign x t).headD [] = (s.headD []).set x t := by
  cases s <;> rfl

/-- Scopes that can stand for `s`: a name that `s` declares has the same type there, and a name may be
declared anew there if it may be in `s`. -/
structure Scopes.Replaces (s' s : Scopes) : Prop where
  lookup : ∀ x t, s.lookup? x = some t → s'.lookup? x = some t
  fresh : ∀ x, (s'.headD []).has x = true → (s.headD []).has x = true

namespace Scopes.Replaces

variable {s s' : Scopes} (h : s'.Replaces s)

include h

theorem push (g : Frame) : Scopes.Replaces (g :: s') (g :: s) := by
  refine ⟨fun x t hx => ?_, fun x hx => hx⟩
  rw [Scopes.lookup?] at hx ⊢
  cases hg : g.get? x with
  | some t' =>
    rw [hg] at hx
    exact hx
  | none =>
    rw [hg] at hx
    exact h.lookup x t hx

/-- A name that can be declared in `s` can be declared in what replaces `s`, and that goes on to do so. -/
theorem declare {u : Scopes} {x : String} {t : Typing} (hu : s.declare x t = .ok u) :
    ∃ u', s'.declare x t = .ok u' ∧ u'.Replaces u := by
  have hlookup := Scopes.lookup?_declare hu
  rcases Scopes.declare_eq_ok.mp hu with ⟨hx, rfl⟩ | ⟨hx, hopen, rfl⟩
  · exact ⟨s', Scopes.declare_eq_ok.mpr (.inl ⟨hx, rfl⟩), h⟩
  · have hopen' : (s'.headD []).has x = false := by
      rw [← Bool.not_eq_true]
      intro hx'
      rw [h.fresh x hx'] at hopen
      cases hopen
    have hu' := Scopes.declare_eq_ok.mpr (.inr ⟨hx, hopen', Eq.refl (s'.assign x t)⟩)
    refine ⟨_, hu', fun y t' hy => ?_, fun y hy => ?_⟩
    · rw [hlookup] at hy
      rw [Scopes.lookup?_declare hu']
      split
      next hxy => rwa [if_pos hxy] at hy
      next hxy =>
        rw [if_neg hxy] at hy
        exact h.lookup y t' hy
    · rw [Scopes.headD_assign, Bindings.has, Bindings.get?_set] at hy ⊢
      split
      next => rfl
      next hxy =>
        rw [if_neg hxy] at hy
        exact h.fresh y hy

end Scopes.Replaces

/-! ## Steps of the analysis side by side -/

/-- Contexts with the given scopes. -/
def At (s s' : Scopes) (c c' : Context) : Prop := c.scopes = s ∧ c'.scopes = s'

/-- Contexts whose scopes are the given ones within one frame more, which is the same. -/
def AtSame (s s' : Scopes) (c c' : Context) : Prop := ∃ g, At (g :: s) (g :: s') c c'

/-- Contexts of which the second can stand for the first. -/
def ReplacedBy (c c' : Context) : Prop := c'.scopes.Replaces c.scopes

namespace Check

variable {α β : Type} {s s' : Scopes} {R R' : Context → Context → Prop} {P : α → β → Prop} {x : Check α}
  {y : Check β}

/-- Nothing is asked for where the first step refuses. -/
theorem mirrors_refuse {γ : Type} {pos : Pos} {f : TypeFault} {k : γ → Check α} :
    Mirrors R (refuse pos f >>= k) y P R' := by
  intro c c' _ a d hx
  obtain ⟨b, e, hb, -⟩ := bind_eq_ok.mp hx
  exact absurd hb refuse_ne_ok

/-- A step that is refused unless a condition holds. -/
theorem mirrors_guarded {γ δ : Type} {b : Bool} {pos pos' : Pos} {f f' : TypeFault} {k : γ → Check α}
    {l : δ → Check β} (h : b = true → Mirrors R x y P R') :
    Mirrors R (if b = true then x else refuse pos f >>= k) (if b = true then y else refuse pos' f' >>= l) P
      R' := by
  cases b with
  | true => exact h rfl
  | false => exact mirrors_refuse

theorem mirrors_within {frame : Frame} (h : Mirrors (AtSame s s') x y P (AtSame s s')) :
    Mirrors (At s s') (within frame x) (within frame y) P (At s s') := by
  rintro c c' ⟨rfl, rfl⟩ a d hx
  obtain ⟨c₁, hin, rfl⟩ := within_eq_ok.mp hx
  obtain ⟨b, c₂, hy, hab, g, hg, hg'⟩ := h ⟨frame :: c.scopes, c.warnings⟩ ⟨frame :: c'.scopes, c'.warnings⟩
    ⟨frame, rfl, rfl⟩ a c₁ hin
  exact ⟨b, _, within_eq_ok.mpr ⟨c₂, hy, rfl⟩, hab, by rw [hg]; rfl, by rw [hg']; rfl⟩

theorem mirrors_same (h : ∀ g, Mirrors (At (g :: s) (g :: s')) x y P (At (g :: s) (g :: s'))) :
    Mirrors (AtSame s s') x y P (AtSame s s') := by
  rintro c c' ⟨g, hg⟩ a d hx
  obtain ⟨b, d', hy, hab, hd⟩ := h g c c' hg a d hx
  exact ⟨b, d', hy, hab, g, hd⟩

variable {pos pos' : Pos} {z : String} {t : Typing}

theorem mirrors_declare_same :
    Mirrors (AtSame s s') (declare pos z t) (declare pos' z t) (fun _ _ => True) (AtSame s s') := by
  rintro c c' ⟨g, hg, hg'⟩ a d hx
  obtain ⟨u, hu, rfl⟩ := Camlet.declare_eq_ok.mp hx
  rw [hg] at hu
  rcases Scopes.declare_eq_ok.mp hu with ⟨hz, rfl⟩ | ⟨hz, hopen, rfl⟩
  · have hu' : c'.scopes.declare z t = .ok (g :: s') := hg' ▸ Scopes.declare_eq_ok.mpr (.inl ⟨hz, rfl⟩)
    exact ⟨a, _, Camlet.declare_eq_ok.mpr ⟨_, hu', rfl⟩, trivial, g, rfl, rfl⟩
  · have hu' : c'.scopes.declare z t = .ok (g.set z t :: s') :=
      hg' ▸ Scopes.declare_eq_ok.mpr (.inr ⟨hz, hopen, rfl⟩)
    exact ⟨a, _, Camlet.declare_eq_ok.mpr ⟨_, hu', rfl⟩, trivial, g.set z t, rfl, rfl⟩

theorem mirrors_assign_same :
    Mirrors (AtSame s s') (assign z t) (assign z t) (fun _ _ => True) (AtSame s s') := by
  rintro c c' ⟨g, hg, hg'⟩ a d hx
  cases hx
  exact ⟨(), _, rfl, trivial, g.set z t, congrArg (Scopes.assign · z t) hg,
    congrArg (Scopes.assign · z t) hg'⟩

theorem mirrors_declare :
    Mirrors ReplacedBy (declare pos z t) (declare pos' z t) (fun _ _ => True) ReplacedBy := by
  intro c c' hc a d hx
  obtain ⟨u, hu, rfl⟩ := Camlet.declare_eq_ok.mp hx
  obtain ⟨u', hu', hreplaces⟩ := hc.declare hu
  exact ⟨a, _, Camlet.declare_eq_ok.mpr ⟨u', hu', rfl⟩, trivial, hreplaces⟩

theorem mirrors_lookup (h : s'.Replaces s) :
    Mirrors (At s s') (lookup pos z) (lookup pos' z) Eq (At s s') := by
  rintro c c' ⟨hs, hs'⟩ t d hx
  obtain ⟨ht, rfl⟩ := lookup_eq_ok.mp hx
  rw [hs] at ht
  exact ⟨t, c', lookup_eq_ok.mpr ⟨hs' ▸ h.lookup z t ht, rfl⟩, rfl, hs, hs'⟩

/-- Warnings do not matter to scopes. -/
theorem mirrors_warn_left {w : Warning} (h : Mirrors (At s s') x y P R') :
    Mirrors (At s s') (warn pos w >>= fun _ => x) y P R' :=
  fun c c' hc a d hx => h ⟨c.scopes, ⟨pos, w⟩ :: c.warnings⟩ c' hc a d hx

theorem mirrors_warn_right {w : Warning} (h : Mirrors (At s s') x y P R') :
    Mirrors (At s s') x (warn pos w >>= fun _ => y) P R' :=
  fun c c' hc a d hx => h c ⟨c'.scopes, ⟨pos, w⟩ :: c'.warnings⟩ hc a d hx

end Check

/-! ## One lemma for each rule -/

namespace Infer

open Check

/-- An expression has the type that it has at other places and in scopes that can replace those. -/
def PlaceFree (sub : Node → Check Typing) (e : Node) : Prop :=
  ∀ f s s', s'.Replaces s → Mirrors (At s s') (sub e) (sub (e.moved f)) Eq (At s s')

variable {sub : Node → Check Typing} {f : Pos → Pos} {s s' : Scopes} {pos pos' : Pos}

theorem PlaceFree.same {e : Node} (he : PlaceFree sub e) (f : Pos → Pos) (h : s'.Replaces s) :
    Mirrors (AtSame s s') (sub e) (sub (e.moved f)) Eq (AtSame s s') :=
  mirrors_same fun g => he f _ _ (h.push g)

variable (h : s'.Replaces s)

include h

theorem mirrors_letIn {x : String} {v b : Node} {r : Bool} (hv : PlaceFree sub v) (hb : PlaceFree sub b) :
    Mirrors (At s s') (letIn sub pos x v b r) (letIn sub pos' x (v.moved f) (b.moved f) r) Eq (At s s') := by
  refine mirrors_within ?_
  cases r with
  | false =>
    refine (hv.same f h).bind fun t t' ht => ?_
    subst ht
    exact mirrors_declare_same.bind fun _ _ _ => hb.same f h
  | true =>
    refine mirrors_declare_same.bind fun _ _ _ => (hv.same f h).bind fun t t' ht => ?_
    subst ht
    exact mirrors_assign_same.bind fun _ _ _ => hb.same f h

theorem mirrors_cond {n m k : Node} (hn : PlaceFree sub n) (hm : PlaceFree sub m) (hk : PlaceFree sub k) :
    Mirrors (At s s') (Infer.cond sub pos n m k)
      (Infer.cond sub pos' (n.moved f) (m.moved f) (k.moved f)) Eq (At s s') := by
  refine (hn f s s' h).bind fun t t' ht => ?_
  subst ht
  refine mirrors_guarded fun _ => (hm f s s' h).bind fun tm tm' htm => (hk f s s' h).bind fun tk tk' htk => ?_
  subst htm htk
  exact mirrors_guarded fun _ => mirrors_pure rfl

theorem mirrors_lambda {p : String} {b : Node} (hb : PlaceFree sub b) :
    Mirrors (At s s') (lambda sub pos p b) (lambda sub pos' p (b.moved f)) Eq (At s s') := by
  refine mirrors_within (mirrors_declare_same.bind fun _ _ _ => (hb.same f h).bind fun t t' ht => ?_)
  subst ht
  exact mirrors_pure rfl

theorem mirrors_apply {g a : Node} (hg : PlaceFree sub g) (ha : PlaceFree sub a) :
    Mirrors (At s s') (apply sub pos g a) (apply sub pos' (g.moved f) (a.moved f)) Eq (At s s') := by
  refine (hg f s s' h).bind fun t t' ht => (ha f s s' h).bind fun _ _ _ => ?_
  subst ht
  cases t with
  | none => exact mirrors_throw
  | some t =>
    dsimp only
    split
    · exact mirrors_pure rfl
    · split
      · exact mirrors_pure rfl
      · exact mirrors_throw

omit h in
theorem mirrors_operand {fits : Typing → Bool} {fault : String → String → TypeFault} {n n' : Node}
    {t : Typing} :
    Mirrors (At s s') (operand fits fault n t) (operand fits fault n' t) (fun _ _ => True) (At s s') := by
  intro c c' hc a d hx
  obtain ⟨hfits, rfl⟩ := operand_eq_ok.mp hx
  exact ⟨a, c', operand_eq_ok.mpr ⟨hfits, rfl⟩, trivial, hc⟩

theorem mirrors_binary {o : String} {l r : Node} (hl : PlaceFree sub l) (hr : PlaceFree sub r) :
    Mirrors (At s s') (binary sub pos o l r) (binary sub pos' o (l.moved f) (r.moved f)) Eq (At s s') := by
  refine (hl f s s' h).bind fun tl tl' htl => (hr f s s' h).bind fun tr tr' htr => ?_
  subst htl htr
  split
  · exact mirrors_operand.bind fun _ _ _ => mirrors_operand.bind fun _ _ _ => mirrors_pure rfl
  · split
    · exact mirrors_operand.bind fun _ _ _ => mirrors_operand.bind fun _ _ _ => mirrors_pure rfl
    · refine mirrors_operand.bind fun _ _ _ => mirrors_operand.bind fun _ _ _ => mirrors_guarded fun _ => ?_
      split
      · exact mirrors_pure rfl
      · split
        · exact mirrors_pure rfl
        · exact mirrors_throw

theorem mirrors_unary {o : String} {e : Node} (he : PlaceFree sub e) :
    Mirrors (At s s') (unary sub pos o e) (unary sub pos' o (e.moved f)) Eq (At s s') := by
  refine (he f s s' h).bind fun t t' ht => ?_
  subst ht
  split
  · exact mirrors_guarded fun _ => mirrors_pure rfl
  · exact mirrors_guarded fun _ => mirrors_pure rfl

omit h in
/-- A case and the ones behind it, but for the warning that it is not used. -/
def caseAndRest (sub : Node → Check Typing) (before : Typing) (all : Option Node) (pattern body : Node)
    (rest : List (Node × Node)) : Check Typing := do
  let t ← within [] do
    match pattern with
    | .bind pos name => declare pos name (some .unknown)
    | _ => pure ()
    sub body
  if before.isSome && !before.compatible t then refuse body.pos (.cases before.name t.name)
  cases sub (before.join t) (all <|> (if pattern.matchesAll then some pattern else none)) rest

theorem mirrors_caseBody {p e : Node} (hp : IsPattern p) (he : PlaceFree sub e) :
    Mirrors (At s s') (caseBody sub p e) (caseBody sub (p.moved f) (e.moved f)) Eq (At s s') := by
  have hbody := he.same f h
  refine mirrors_within ?_
  cases hp with
  | wildcard => exact hbody
  | bind => exact mirrors_declare_same.bind fun _ _ _ => hbody

theorem mirrors_caseAndRest {before : Typing} {all all' : Option Node} {p e : Node} {cs : List (Node × Node)}
    (hp : IsPattern p) (he : PlaceFree sub e)
    (hcs : ∀ before all all',
      Mirrors (At s s') (cases sub before all cs) (cases sub before all' (Node.movedCases f cs)) Eq (At s s')) :
    Mirrors (At s s') (caseAndRest sub before all p e cs)
      (caseAndRest sub before all' (p.moved f) (e.moved f) (Node.movedCases f cs)) Eq (At s s') := by
  refine (mirrors_caseBody h hp he).bind fun t t' ht => ?_
  subst ht
  dsimp only
  by_cases hbad : (before.isSome && !before.compatible t) = true
  · rw [if_pos hbad, if_pos hbad]
    exact mirrors_refuse
  · rw [if_neg hbad, if_neg hbad]
    exact hcs _ _ _

theorem mirrors_cases {before : Typing} {all all' : Option Node} {cs : List (Node × Node)}
    (hp : ∀ c ∈ cs, IsPattern c.1) (he : ∀ c ∈ cs, PlaceFree sub c.2) :
    Mirrors (At s s') (cases sub before all cs) (cases sub before all' (Node.movedCases f cs)) Eq
      (At s s') := by
  induction cs generalizing before all all' with
  | nil => exact mirrors_pure rfl
  | cons c cs ih =>
    obtain ⟨p, e⟩ := c
    obtain ⟨hp, hps⟩ := List.forall_mem_cons.mp hp
    obtain ⟨he, hes⟩ := List.forall_mem_cons.mp he
    -- Whether an earlier case matches everything decides about warnings only, so the two may differ in it.
    have hstep : ∀ all all', Mirrors (At s s') (caseAndRest sub before all p e cs)
        (caseAndRest sub before all' (p.moved f) (e.moved f) (Node.movedCases f cs)) Eq (At s s') :=
      fun _ _ => mirrors_caseAndRest h hp he fun _ _ _ => ih hps hes
    cases all with
    | none =>
      cases all' with
      | none => exact hstep none none
      | some q' => exact mirrors_warn_right (hstep none (some q'))
    | some q =>
      cases all' with
      | none => exact mirrors_warn_left (hstep (some q) none)
      | some q' => exact mirrors_warn_left (mirrors_warn_right (hstep (some q) (some q')))

theorem mirrors_matching {n : Node} {cs : List (Node × Node)} (hn : PlaceFree sub n)
    (hp : ∀ c ∈ cs, IsPattern c.1) (he : ∀ c ∈ cs, PlaceFree sub c.2) :
    Mirrors (At s s') (matching sub n cs) (matching sub (n.moved f) (Node.movedCases f cs)) Eq (At s s') :=
  (hn f s s' h).bind fun _ _ _ => mirrors_cases h hp he

end Infer

/-- An expression that passes the analysis passes it with the same type at other places, and in scopes that
can replace its own. -/
theorem infer_placeFree (depth : Nat) {e : Node} (he : IsExpression e) :
    Infer.PlaceFree (infer depth) e := by
  induction depth generalizing e with
  | zero => exact fun _ _ _ _ => mirrors_throw
  | succ depth ih =>
    intro f s s' h
    cases he with
    | letIn pos x hv _ hb => exact Infer.mirrors_letIn h (ih hv) (ih hb)
    | cond pos hc ht he => exact Infer.mirrors_cond h (ih hc) (ih ht) (ih he)
    | matching pos hs _ hp he =>
      exact Infer.mirrors_matching h (ih hs) hp fun c hc => ih (he c hc)
    | lambda pos p hb => exact Infer.mirrors_lambda h (ih hb)
    | apply pos hf ha => exact Infer.mirrors_apply h (ih hf) (ih ha)
    | binary pos o hl hr => exact Infer.mirrors_binary h (ih hl) (ih hr)
    | unary pos o he => exact Infer.mirrors_unary h (ih he)
    | intLit | floatLit | stringLit | charLit => exact mirrors_pure rfl
    | ident pos x => exact Check.mirrors_lookup h

/-! ## Declarations -/

/-- What leaves all scopes as they were leaves them replaceable. -/
theorem Check.mirrors_replaced {α β : Type} {P : α → β → Prop} {x : Check α} {y : Check β}
    (h : ∀ s s', s'.Replaces s → Mirrors (At s s') x y P (At s s')) :
    Mirrors ReplacedBy x y P ReplacedBy := by
  intro c c' hc a d hx
  obtain ⟨b, d', hy, hab, hd, hd'⟩ := h _ _ hc c c' ⟨rfl, rfl⟩ a d hx
  refine ⟨b, d', hy, hab, ?_⟩
  rw [ReplacedBy, hd, hd']
  exact hc

namespace Infer

open Check

variable {sub : Node → Check Typing} {f : Pos → Pos} {s s' : Scopes} {pos pos' : Pos}

theorem mirrors_params (ps : List String) :
    Mirrors (AtSame s s') (params pos ps) (params pos' ps) (fun _ _ => True) (AtSame s s') := by
  induction ps with
  | nil => exact mirrors_pure trivial
  | cons p ps ih => exact mirrors_declare_same.bind fun _ _ _ => ih

/-- The body of a function declaration has the same type in scopes that can replace its own. -/
theorem mirrors_funBody (h : s'.Replaces s) {ps : List String} {b : Node} (hb : PlaceFree sub b)
    (own : Frame) :
    Mirrors (At s s') (within own (within [] (params pos ps >>= fun _ => sub b)))
      (within own (within [] (params pos' ps >>= fun _ => sub (b.moved f)))) Eq (At s s') :=
  mirrors_within (mirrors_same fun g =>
    mirrors_within ((mirrors_params ps).bind fun _ _ _ => hb.same f (h.push g)))

theorem mirrors_funDecl {x : String} {ps : List String} {b : Node} {r : Bool} (hb : PlaceFree sub b) :
    Mirrors ReplacedBy (funDecl sub pos x ps b r) (funDecl sub pos' x ps (b.moved f) r) Eq ReplacedBy := by
  refine (mirrors_replaced fun s s' h => mirrors_funBody h hb _).bind fun t t' ht => ?_
  subst ht
  exact mirrors_declare.bind fun _ _ _ => mirrors_pure rfl

end Infer

/-- A declaration that passes the analysis passes it with the same type at other places, and in scopes that
can replace its own, and what it declares leaves the scopes so. -/
theorem infer_declaration_mirrors (depth : Nat) {d : Node} (hd : IsDeclaration d) (f : Pos → Pos) :
    Mirrors ReplacedBy (infer depth d) (infer depth (d.moved f)) Eq ReplacedBy := by
  cases depth with
  | zero => exact mirrors_throw
  | succ depth =>
    cases hd with
    | letDecl pos x hv =>
      refine (Check.mirrors_replaced (infer_placeFree depth hv f)).bind fun t t' ht => ?_
      subst ht
      exact Check.mirrors_declare.bind fun _ _ _ => mirrors_pure rfl
    | funDecl pos x p ps r hb => exact Infer.mirrors_funDecl (infer_placeFree depth hb)
    | exprStmt pos he => exact Check.mirrors_replaced (infer_placeFree depth he f)

end Camlet
