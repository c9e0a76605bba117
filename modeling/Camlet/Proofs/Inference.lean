import Camlet.Proofs.Shape
import Camlet.Proofs.Stateful
import Camlet.Typing.Analysis

/-
  Inference of types, as a relation between scopes, expressions and types. It leaves out the depth of
  nesting, the warnings and the faults: whatever is said of an expression that passes the analysis is
  said by induction on this relation.
-/

namespace Camlet

open Stateful

/-- The frame of a scope that declares one name, unless that is `_`. -/
def Frame.own (x : String) (t : Typing) : Frame := if x = "_" then [] else [(x, t)]

/-- The frame of a case: it declares the name of its pattern. -/
def Frame.ofPattern : Node → Frame
  | .bind _ x => .own x (some .unknown)
  | _ => []

namespace Typing

/-- The type of cases when one of another type joins them. -/
def join (before t : Typing) : Typing := if before.isSome then before.unify t else t

end Typing

/-- The analysis of one case alone: its body, in a frame of its own in which the name of its pattern is declared. -/
def Infer.caseBody (sub : Node → Check Typing) (pattern body : Node) : Check Typing :=
  Check.within [] do
    match pattern with
    | .bind pos name => Check.declare pos name (some .unknown)
    | _ => pure ()
    sub body

/-- The type that is inferred for an expression in scopes. -/
inductive Infers : Scopes → Node → Typing → Prop
  | letIn {s : Scopes} {pos : Pos} {x : String} {v b : Node} {tv tb : Typing} :
    Infers ([] :: s) v tv → Infers (Frame.own x tv :: s) b tb → Infers s (.letIn pos x v b false) tb
  | letRec {s : Scopes} {pos : Pos} {x : String} {v b : Node} {tv tb : Typing} :
    Infers (Frame.own x (some .anyFunction) :: s) v tv →
    Infers (((x, tv) :: Frame.own x (some .anyFunction)) :: s) b tb → Infers s (.letIn pos x v b true) tb
  | cond {s : Scopes} {pos : Pos} {c t e : Node} {tc tt te : Typing} :
    Infers s c tc → Infers s t tt → Infers s e te → tt.compatible te = true →
    Infers s (.cond pos c t e) (tt.unify te)
  | matching {s : Scopes} {pos : Pos} {n : Node} {cs : List (Node × Node)} {tn : Typing}
    {ts : List Typing} :
    Infers s n tn → ts.length = cs.length →
    (∀ ct ∈ cs.zip ts, Infers (Frame.ofPattern ct.1.1 :: s) ct.1.2 ct.2) →
    Infers s (.matching pos n cs) (ts.foldl Typing.join none)
  | lambda {s : Scopes} {pos : Pos} {p : String} {b : Node} {t : Typing} :
    Infers (Frame.own p (some .unknown) :: s) b t → Infers s (.lambda pos p b) (some t.function)
  | apply {s : Scopes} {pos : Pos} {f a : Node} {tf : Ty} {ta : Typing} :
    Infers s f (some tf) → Infers s a ta → tf.kind = .function →
    Infers s (.apply pos f a) (some (tf.returns?.getD .unknown))
  | applyUnknown {s : Scopes} {pos : Pos} {f a : Node} {tf : Ty} {ta : Typing} :
    Infers s f (some tf) → Infers s a ta → tf.kind = .unknown →
    Infers s (.apply pos f a) (some .unknown)
  | logical {s : Scopes} {pos : Pos} {o : String} {l r : Node} {tl tr : Typing} :
    Infers s l tl → Infers s r tr → o ∈ logicalOperators → Infers s (.binary pos o l r) (some .int)
  | floating {s : Scopes} {pos : Pos} {o : String} {l r : Node} {tl tr : Typing} :
    Infers s l tl → Infers s r tr → o ∈ floatOperators → Infers s (.binary pos o l r) (some .float)
  | comparison {s : Scopes} {pos : Pos} {o : String} {l r : Node} {tl tr : Typing} :
    Infers s l tl → Infers s r tr → o ∈ comparisonOperators → Infers s (.binary pos o l r) (some .int)
  | arithmetic {s : Scopes} {pos : Pos} {o : String} {l r : Node} {tl tr : Typing} :
    Infers s l tl → Infers s r tr → o ∈ arithmeticOperators →
    Infers s (.binary pos o l r)
      (some (if tl.isKind .float || tr.isKind .float then .float else .int))
  | floatSign {s : Scopes} {pos : Pos} {e : Node} {t : Typing} :
    Infers s e t → Infers s (.unary pos "-." e) (some .float)
  | sign {s : Scopes} {pos : Pos} {o : String} {e : Node} {t : Typing} :
    Infers s e t → o ≠ "-." → t.isNumeric = true →
    Infers s (.unary pos o e) (if t.isKind .unknown then some .int else t)
  | intLit {s : Scopes} {pos : Pos} {n : Int} : Infers s (.intLit pos n) (some .int)
  | floatLit {s : Scopes} {pos : Pos} {x : Float} : Infers s (.floatLit pos x) (some .float)
  | stringLit {s : Scopes} {pos : Pos} {t : String} : Infers s (.stringLit pos t) (some .string)
  | charLit {s : Scopes} {pos : Pos} {t : String} : Infers s (.charLit pos t) (some .char)
  | ident {s : Scopes} {pos : Pos} {x : String} {t : Typing} :
    s.lookup? x = some t → Infers s (.ident pos x) t

/-! ## Steps of the analysis -/

section

variable {α : Type} {c c' : Context} {frame : Frame} {pos : Pos} {x : String} {t : Typing}

theorem within_eq_ok {m : Check α} {a : α} :
    Check.within frame m c = .ok a c' ↔
      ∃ c₁, m { c with scopes := frame :: c.scopes } = .ok a c₁ ∧
        c' = { c₁ with scopes := c₁.scopes.tail } := by
  rw [Check.within]
  cases m { c with scopes := frame :: c.scopes } with
  | ok b d => simp [and_assoc, eq_comm (b := c')]
  | error e d => simp

/-- Declaring a name that is in no conflict adds it to the innermost frame. -/
theorem declare_eq_ok {u : Unit} :
    Check.declare pos x t c = .ok u c' ↔
      ∃ s, c.scopes.declare x t = .ok s ∧ c' = { c with scopes := s } := by
  rw [Check.declare, get_bind]
  cases c.scopes.declare x t with
  | ok s => simp [eq_comm]
  | error f => simp [Check.refuse]

theorem declare_fresh {s : Scopes} : Scopes.declare ([] :: s) x t = .ok (Frame.own x t :: s) := by
  by_cases hx : x = "_"
  · simp [Scopes.declare, Frame.own, hx]
  · simp [Scopes.declare, Frame.own, hx, Bindings.has, Scopes.assign, Bindings.set]

theorem declare_fresh_eq_ok {s : Scopes} {ws : List (Located Warning)} {u : Unit} :
    Check.declare pos x t ⟨[] :: s, ws⟩ = .ok u c' ↔ c' = ⟨Frame.own x t :: s, ws⟩ := by
  rw [declare_eq_ok]
  simp [declare_fresh]

theorem lookup_eq_ok : Check.lookup pos x c = .ok t c' ↔ c.scopes.lookup? x = some t ∧ c' = c := by
  rw [Check.lookup, get_bind, Scopes.lookup]
  cases c.scopes.lookup? x with
  | some t' => simp [eq_comm]
  | none => simp [Check.refuse]

theorem refuse_ne_ok {f : TypeFault} {a : α} : Check.refuse pos f c ≠ .ok a c' := nofun

/-- A step that refuses unless a condition holds. -/
theorem guarded_eq_ok {β : Type} {b : Bool} {f : TypeFault} {k : α → Check β} {m : Check β} {r : β} :
    (if b = true then m else Check.refuse pos f >>= k) c = .ok r c' ↔ b = true ∧ m c = .ok r c' := by
  cases b with
  | true => simp
  | false => simp [bind_eq_ok, refuse_ne_ok]

theorem operand_eq_ok {fits : Typing → Bool} {fault : String → String → TypeFault} {n : Node} {u : Unit} :
    Infer.operand fits fault n t c = .ok u c' ↔ fits t = true ∧ c' = c := by
  rw [Infer.operand]
  cases fits t with
  | true => simp [eq_comm (b := c')]
  | false => simp [refuse_ne_ok]

end

/-! ## Rules that go well -/

/-- The operator `o` takes operands of the types `l` and `r`, and gives what is of the type `t`. -/
inductive Operates (o : String) (l r : Typing) : Typing → Prop
  | logical : o ∈ logicalOperators → l.compatible (some .int) = true → r.compatible (some .int) = true →
    Operates o l r (some .int)
  | floating : o ∈ floatOperators → l.compatible (some .float) = true → r.compatible (some .float) = true →
    Operates o l r (some .float)
  | comparison : o ∈ comparisonOperators → l.isNumeric = true → r.isNumeric = true →
    l.compatible r = true → Operates o l r (some .int)
  | arithmetic : o ∈ arithmeticOperators → l.isNumeric = true → r.isNumeric = true →
    l.compatible r = true → Operates o l r (some (if l.isKind .float || r.isKind .float then .float else .int))

section

variable {sub : Node → Check Typing} {c c' : Context} {t : Typing} {pos : Pos}

theorem letIn_eq_ok {x : String} {v b : Node} :
    Infer.letIn sub pos x v b false c = .ok t c' ↔
      ∃ tv c₁ c₂ c₃, sub v { c with scopes := [] :: c.scopes } = .ok tv c₁ ∧
        Check.declare pos x tv c₁ = .ok () c₂ ∧ sub b c₂ = .ok t c₃ ∧
        c' = { c₃ with scopes := c₃.scopes.tail } := by
  simp only [Infer.letIn, within_eq_ok, Bool.false_eq_true, if_false, bind_eq_ok]
  constructor
  · rintro ⟨c₃, ⟨tv, c₁, hv, _, c₂, hx, hb⟩, rfl⟩
    exact ⟨tv, c₁, c₂, c₃, hv, hx, hb, rfl⟩
  · rintro ⟨tv, c₁, c₂, c₃, hv, hx, hb, rfl⟩
    exact ⟨c₃, ⟨tv, c₁, hv, _, c₂, hx, hb⟩, rfl⟩

theorem cond_eq_ok {n m k : Node} (h : Infer.cond sub pos n m k c = .ok t c') :
    ∃ tn c₁ tm c₂ tk, sub n c = .ok tn c₁ ∧ tn.compatible (some .int) = true ∧ sub m c₁ = .ok tm c₂ ∧
      sub k c₂ = .ok tk c' ∧ tm.compatible tk = true ∧ t = tm.unify tk := by
  simp only [Infer.cond, bind_eq_ok, guarded_eq_ok, pure_run] at h
  obtain ⟨tn, c₁, hn, hint, tm, c₂, hm, tk, c₃, hk, hcompat, heq⟩ := h
  cases heq
  exact ⟨tn, c₁, tm, c₂, tk, hn, hint, hm, hk, hcompat, rfl⟩

theorem lambda_eq_ok {p : String} {b : Node} :
    Infer.lambda sub pos p b c = .ok t c' ↔
      ∃ tb c₁, sub b { c with scopes := Frame.own p (some .unknown) :: c.scopes } = .ok tb c₁ ∧
        t = some tb.function ∧ c' = { c₁ with scopes := c₁.scopes.tail } := by
  simp only [Infer.lambda, within_eq_ok, bind_eq_ok, pure_run]
  constructor
  · rintro ⟨c₁, ⟨_, c₂, hp, tb, c₃, hb, heq⟩, rfl⟩
    obtain rfl := declare_fresh_eq_ok.mp hp
    cases heq
    exact ⟨tb, c₁, hb, rfl, rfl⟩
  · rintro ⟨tb, c₁, hb, rfl, rfl⟩
    exact ⟨c₁, ⟨(), _, declare_fresh_eq_ok.mpr rfl, tb, c₁, hb, rfl⟩, rfl⟩

/-- But for a warning, the first of some cases is analyzed alone, and its type joins that of the cases in front. -/
theorem cases_cons_run (before : Typing) (all : Option Node) (p e : Node) (cs : List (Node × Node)) (s : Scopes)
    (ws : List (Located Warning)) :
    ∃ ws', Infer.cases sub before all ((p, e) :: cs) ⟨s, ws⟩ = (Infer.caseBody sub p e >>= fun t => do
      if before.isSome && !before.compatible t then Check.refuse e.pos (.cases before.name t.name)
      Infer.cases sub (before.join t) (all <|> if p.matchesAll then some p else none) cs) ⟨s, ws'⟩ := by
  cases all with
  | none => exact ⟨ws, rfl⟩
  | some q => exact ⟨⟨p.pos, .unusedCase q.pos.line⟩ :: ws, rfl⟩

/-- The first of some cases, and the others with what was found so far. -/
theorem cases_cons_eq_ok {before : Typing} {all : Option Node} {p e : Node} {cs : List (Node × Node)}
    (h : Infer.cases sub before all ((p, e) :: cs) c = .ok t c') :
    ∃ ws te c₁ all',
      (do
        match p with
        | .bind pos name => Check.declare pos name (some .unknown)
        | _ => pure ()
        sub e) ⟨[] :: c.scopes, ws⟩ = .ok te c₁ ∧
      (before.isSome = true → before.compatible te = true) ∧
      Infer.cases sub (before.join te) all' cs { c₁ with scopes := c₁.scopes.tail } = .ok t c' := by
  obtain ⟨ws, hrun⟩ := cases_cons_run before all p e cs c.scopes c.warnings
  rw [hrun] at h
  obtain ⟨te, c₁, h₁, h₂⟩ := bind_eq_ok.mp h
  obtain ⟨c₂, h₃, rfl⟩ := within_eq_ok.mp h₁
  split at h₂
  · exact absurd h₂ (by simp [bind_eq_ok, refuse_ne_ok])
  next hcompat => exact ⟨ws, te, c₂, _, h₃, by simpa using hcompat, h₂⟩

theorem unary_eq_ok {o : String} {e : Node} (h : Infer.unary sub pos o e c = .ok t c') :
    ∃ te, sub e c = .ok te c' ∧
      (o = "-." ∧ te.compatible (some .float) = true ∧ t = some .float ∨
        o ≠ "-." ∧ te.isNumeric = true ∧ t = if te.isKind .unknown then some .int else te) := by
  simp only [Infer.unary, bind_eq_ok] at h
  obtain ⟨te, c₁, h₁, h₂⟩ := h
  by_cases ho : o = "-."
  · simp only [ho, if_true, guarded_eq_ok, pure_run] at h₂
    obtain ⟨hfloat, h₂⟩ := h₂
    cases h₂
    exact ⟨te, h₁, .inl ⟨ho, hfloat, rfl⟩⟩
  · simp only [ho, if_false, guarded_eq_ok, pure_run] at h₂
    obtain ⟨hnum, h₂⟩ := h₂
    cases h₂
    exact ⟨te, h₁, .inr ⟨ho, hnum, rfl⟩⟩

theorem binary_eq_ok {o : String} {l r : Node} (h : Infer.binary sub pos o l r c = .ok t c') :
    ∃ tl c₁ tr, sub l c = .ok tl c₁ ∧ sub r c₁ = .ok tr c' ∧ Operates o tl tr t := by
  simp only [Infer.binary, bind_eq_ok] at h
  obtain ⟨tl, c₁, h₁, tr, c₂, h₂, h₃⟩ := h
  suffices c' = c₂ ∧ Operates o tl tr t by
    obtain ⟨rfl, hop⟩ := this
    exact ⟨tl, c₁, tr, h₁, h₂, hop⟩
  by_cases hlog : logicalOperators.contains o = true
  · simp only [hlog, if_true, bind_eq_ok, operand_eq_ok, pure_run] at h₃
    obtain ⟨_, _, ⟨hl, rfl⟩, _, _, ⟨hr, rfl⟩, h₃⟩ := h₃
    cases h₃
    exact ⟨rfl, .logical (List.contains_iff_mem.mp hlog) hl hr⟩
  rw [Bool.not_eq_true] at hlog
  by_cases hflo : floatOperators.contains o = true
  · simp only [hlog, hflo, Bool.false_eq_true, if_true, if_false, bind_eq_ok, operand_eq_ok, pure_run] at h₃
    obtain ⟨_, _, ⟨hl, rfl⟩, _, _, ⟨hr, rfl⟩, h₃⟩ := h₃
    cases h₃
    exact ⟨rfl, .floating (List.contains_iff_mem.mp hflo) hl hr⟩
  rw [Bool.not_eq_true] at hflo
  simp only [hlog, hflo, Bool.false_eq_true, if_false, bind_eq_ok, operand_eq_ok, guarded_eq_ok] at h₃
  obtain ⟨_, _, ⟨hl, rfl⟩, _, _, ⟨hr, rfl⟩, hcompat, h₃⟩ := h₃
  by_cases hcmp : comparisonOperators.contains o = true
  · simp only [hcmp, if_true, pure_run] at h₃
    cases h₃
    exact ⟨rfl, .comparison (List.contains_iff_mem.mp hcmp) hl hr hcompat⟩
  by_cases har : arithmeticOperators.contains o = true
  · simp only [hcmp, har, if_true] at h₃
    cases h₃
    exact ⟨rfl, .arithmetic (List.contains_iff_mem.mp har) hl hr hcompat⟩
  simp only [hcmp, har] at h₃
  exact absurd h₃ refuse_ne_ok

end

/-! ## What passes the analysis is inferred -/

section

variable {sub : Node → Check Typing} {c c' : Context} {t : Typing}

/-- What a rule may take for granted of the nodes below: their types are inferred, and they leave the
scopes as they were. -/
def Sound (sub : Node → Check Typing) (n : Node) : Prop :=
  ∀ c t c', sub n c = .ok t c' → Infers c.scopes n t ∧ c'.scopes = c.scopes

theorem infers_letIn {pos : Pos} {x : String} {v b : Node} {r : Bool} (hv : Sound sub v)
    (hb : Sound sub b) (h : Infer.letIn sub pos x v b r c = .ok t c') :
    Infers c.scopes (.letIn pos x v b r) t ∧ c'.scopes = c.scopes := by
  cases r with
  | false =>
    obtain ⟨tv, ⟨s, ws⟩, c₂, c₃, h₁, h₂, h₃, rfl⟩ := letIn_eq_ok.mp h
    obtain ⟨hv', rfl⟩ : _ ∧ s = _ := hv _ _ _ h₁
    obtain rfl := declare_fresh_eq_ok.mp h₂
    obtain ⟨hb', hs⟩ := hb _ _ _ h₃
    exact ⟨.letIn hv' hb', by rw [hs]; rfl⟩
  | true =>
    obtain ⟨c₁, hin, rfl⟩ := within_eq_ok.mp h
    simp only [if_true, bind_eq_ok, Check.assign, modify_run] at hin
    obtain ⟨_, c₂, h₁, tv, ⟨s, ws⟩, h₂, _, c₃, h₃, h₄⟩ := hin
    obtain rfl := declare_fresh_eq_ok.mp h₁
    obtain ⟨hv', rfl⟩ : _ ∧ s = _ := hv _ _ _ h₂
    cases h₃
    obtain ⟨hb', hs⟩ := hb _ _ _ h₄
    exact ⟨.letRec hv' hb', by rw [hs]; rfl⟩

theorem infers_cond {pos : Pos} {n m k : Node} (hn : Sound sub n) (hm : Sound sub m) (hk : Sound sub k)
    (h : Infer.cond sub pos n m k c = .ok t c') :
    Infers c.scopes (.cond pos n m k) t ∧ c'.scopes = c.scopes := by
  obtain ⟨tn, c₁, tm, c₂, tk, h₁, -, h₂, h₃, hcompat, rfl⟩ := cond_eq_ok h
  obtain ⟨hn', hs₁⟩ := hn _ _ _ h₁
  obtain ⟨hm', hs₂⟩ := hm _ _ _ h₂
  obtain ⟨hk', hs₃⟩ := hk _ _ _ h₃
  rw [hs₂, hs₁] at hk'
  rw [hs₁] at hm'
  exact ⟨.cond hn' hm' hk' hcompat, by rw [hs₃, hs₂, hs₁]⟩

theorem infers_lambda {pos : Pos} {p : String} {b : Node} (hb : Sound sub b)
    (h : Infer.lambda sub pos p b c = .ok t c') :
    Infers c.scopes (.lambda pos p b) t ∧ c'.scopes = c.scopes := by
  obtain ⟨tb, c₁, h₁, rfl, rfl⟩ := lambda_eq_ok.mp h
  obtain ⟨hb', hs⟩ := hb _ _ _ h₁
  exact ⟨.lambda hb', by rw [hs]; rfl⟩

theorem infers_apply {pos : Pos} {f a : Node} (hf : Sound sub f) (ha : Sound sub a)
    (h : Infer.apply sub pos f a c = .ok t c') :
    Infers c.scopes (.apply pos f a) t ∧ c'.scopes = c.scopes := by
  simp only [Infer.apply, bind_eq_ok] at h
  obtain ⟨tf, c₁, h₁, ta, c₂, h₂, h₃⟩ := h
  obtain ⟨hf', hs₁⟩ := hf _ _ _ h₁
  obtain ⟨ha', hs₂⟩ := ha _ _ _ h₂
  rw [hs₁] at ha'
  cases tf with
  | none => cases h₃
  | some tf =>
    by_cases hfun : tf.kind = .function
    · simp only [hfun, if_true, pure_run] at h₃
      cases h₃
      exact ⟨.apply hf' ha' hfun, hs₂.trans hs₁⟩
    · by_cases hun : tf.kind = .unknown
      · simp only [hun, reduceCtorEq, if_true, if_false, pure_run] at h₃
        cases h₃
        exact ⟨.applyUnknown hf' ha' hun, hs₂.trans hs₁⟩
      · simp only [hfun, hun, if_false] at h₃
        exact absurd h₃ refuse_ne_ok

theorem infers_unary {pos : Pos} {o : String} {e : Node} (he : Sound sub e)
    (h : Infer.unary sub pos o e c = .ok t c') :
    Infers c.scopes (.unary pos o e) t ∧ c'.scopes = c.scopes := by
  obtain ⟨te, h₁, hsign⟩ := unary_eq_ok h
  obtain ⟨he', hs⟩ := he _ _ _ h₁
  rcases hsign with ⟨rfl, -, rfl⟩ | ⟨ho, hnum, rfl⟩
  · exact ⟨.floatSign he', hs⟩
  · exact ⟨.sign he' ho hnum, hs⟩

theorem infers_binary {pos : Pos} {o : String} {l r : Node} (hl : Sound sub l) (hr : Sound sub r)
    (h : Infer.binary sub pos o l r c = .ok t c') :
    Infers c.scopes (.binary pos o l r) t ∧ c'.scopes = c.scopes := by
  obtain ⟨tl, c₁, tr, h₁, h₂, hop⟩ := binary_eq_ok h
  obtain ⟨hl', hs₁⟩ := hl _ _ _ h₁
  obtain ⟨hr', hs₂⟩ := hr _ _ _ h₂
  rw [hs₁] at hr'
  refine ⟨?_, hs₂.trans hs₁⟩
  cases hop with
  | logical ho => exact .logical hl' hr' ho
  | floating ho => exact .floating hl' hr' ho
  | comparison ho => exact .comparison hl' hr' ho
  | arithmetic ho => exact .arithmetic hl' hr' ho

/-- The types of cases are inferred one after the other, each in a scope of its own. -/
theorem infers_cases {before : Typing} {all : Option Node} {cs : List (Node × Node)}
    (hp : ∀ p ∈ cs, IsPattern p.1) (he : ∀ p ∈ cs, Sound sub p.2)
    (h : Infer.cases sub before all cs c = .ok t c') :
    ∃ ts : List Typing, ts.length = cs.length ∧
      (∀ ct ∈ cs.zip ts, Infers (Frame.ofPattern ct.1.1 :: c.scopes) ct.1.2 ct.2) ∧
      t = ts.foldl Typing.join before ∧ c'.scopes = c.scopes := by
  induction cs generalizing before all c with
  | nil =>
    cases h
    exact ⟨[], rfl, nofun, rfl, rfl⟩
  | cons p cs ih =>
    obtain ⟨p, e⟩ := p
    obtain ⟨ws, te, c₂, all', h₃, -, hrest⟩ := cases_cons_eq_ok h
    have hbody : Infers (Frame.ofPattern p :: c.scopes) e te ∧
        c₂.scopes = Frame.ofPattern p :: c.scopes := by
      have hsound := he _ (List.mem_cons_self ..)
      cases hp _ (List.mem_cons_self ..) with
      | wildcard => exact hsound _ _ _ h₃
      | bind pos x =>
        obtain ⟨_, c₃, h₄, h₅⟩ := bind_eq_ok.mp h₃
        obtain rfl := declare_fresh_eq_ok.mp h₄
        exact hsound _ _ _ h₅
    obtain ⟨he', hs⟩ := hbody
    rw [hs] at hrest
    obtain ⟨ts, hlen, hts, ht, hs'⟩ := ih (fun q hq => hp q (List.mem_cons_of_mem _ hq))
      (fun q hq => he q (List.mem_cons_of_mem _ hq)) hrest
    refine ⟨te :: ts, by simp [hlen], ?_, ht, hs'⟩
    intro ct hct
    rcases List.mem_cons.mp hct with rfl | hct
    · exact he'
    · exact hts ct hct

theorem infers_matching {pos : Pos} {n : Node} {cs : List (Node × Node)} (hn : Sound sub n)
    (hp : ∀ p ∈ cs, IsPattern p.1) (he : ∀ p ∈ cs, Sound sub p.2)
    (h : Infer.matching sub n cs c = .ok t c') :
    Infers c.scopes (.matching pos n cs) t ∧ c'.scopes = c.scopes := by
  obtain ⟨tn, c₁, h₁, h₂⟩ := bind_eq_ok.mp h
  obtain ⟨hn', hs₁⟩ := hn _ _ _ h₁
  obtain ⟨ts, hlen, hts, rfl, hs₂⟩ := infers_cases hp he h₂
  rw [hs₁] at hts
  exact ⟨.matching hn' hlen hts, hs₂.trans hs₁⟩

end

/-- The type of an expression that passes the analysis is inferred, and the scopes are as before. -/
theorem infer_sound (depth : Nat) {e : Node} (he : IsExpression e) : Sound (infer depth) e := by
  induction depth generalizing e with
  | zero => exact fun _ _ _ h => nomatch h
  | succ depth ih =>
    intro c t c' h
    cases he with
    | letIn pos x hv _ hb => exact infers_letIn (ih hv) (ih hb) h
    | cond pos hc ht he => exact infers_cond (ih hc) (ih ht) (ih he) h
    | matching pos hs _ hp he => exact infers_matching (ih hs) hp (fun p hmem => ih (he p hmem)) h
    | lambda pos p hb => exact infers_lambda (ih hb) h
    | apply pos hf ha => exact infers_apply (ih hf) (ih ha) h
    | binary pos o hl hr => exact infers_binary (ih hl) (ih hr) h
    | unary pos o he => exact infers_unary (ih he) h
    | intLit => cases h; exact ⟨.intLit, rfl⟩
    | floatLit => cases h; exact ⟨.floatLit, rfl⟩
    | stringLit => cases h; exact ⟨.stringLit, rfl⟩
    | charLit => cases h; exact ⟨.charLit, rfl⟩
    | ident pos x =>
      obtain ⟨hx, rfl⟩ := lookup_eq_ok.mp h
      exact ⟨.ident hx, rfl⟩

/-! ## Declarations -/

/-- A name is declared unless the innermost frame has it, and `_` never is. -/
theorem Scopes.declare_eq_ok {s u : Scopes} {x : String} {t : Typing} :
    s.declare x t = .ok u ↔
      x = "_" ∧ u = s ∨ x ≠ "_" ∧ (s.headD []).has x = false ∧ u = s.assign x t := by
  rw [Scopes.declare]
  by_cases hx : x = "_"
  · simp [hx, eq_comm (b := u)]
  · cases hopen : (s.headD []).has x <;> simp [hx, eq_comm (b := u)]

theorem Scopes.lookup?_declare {s s' : Scopes} {x : String} {t : Typing} (h : s.declare x t = .ok s')
    (y : String) : s'.lookup? y = if x = y ∧ x ≠ "_" then some t else s.lookup? y := by
  rcases Scopes.declare_eq_ok.mp h with ⟨hx, rfl⟩ | ⟨hx, -, rfl⟩
  · simp [hx]
  · cases s with
    | nil =>
      simp only [Scopes.assign, Scopes.lookup?, Bindings.get?]
      by_cases hxy : x = y <;> simp [hxy, hx]
      exact hxy ▸ hx
    | cons f s =>
      simp only [Scopes.assign, Scopes.lookup?, Bindings.get?_set]
      by_cases hxy : x = y <;> simp [hxy, hx]
      exact fun h => absurd (hxy.trans h) hx

section

variable {depth : Nat} {c c' : Context} {t : Typing} {pos : Pos}

theorem infer_letDecl {x : String} {v : Node} (hv : IsExpression v)
    (h : infer depth (.letDecl pos x v) c = .ok t c') :
    Infers c.scopes v t ∧ c.scopes.declare x t = .ok c'.scopes := by
  cases depth with
  | zero => cases h
  | succ depth =>
    obtain ⟨tv, c₁, h₁, h₂⟩ := bind_eq_ok.mp h
    obtain ⟨_, c₂, h₂, h₃⟩ := bind_eq_ok.mp h₂
    cases h₃
    obtain ⟨hv', hs⟩ := infer_sound depth hv _ _ _ h₁
    obtain ⟨s, hs', rfl⟩ := declare_eq_ok.mp h₂
    exact ⟨hv', hs ▸ hs'⟩

theorem infer_exprStmt {e : Node} (he : IsExpression e) (h : infer depth (.exprStmt pos e) c = .ok t c') :
    Infers c.scopes e t ∧ c'.scopes = c.scopes := by
  cases depth with
  | zero => cases h
  | succ depth => exact infer_sound depth he _ _ _ h

/-- Declaring parameters adds them, and nothing else, to the innermost frame. -/
theorem params_eq_ok_frame {ps : List String} {f : Frame} {s : Scopes} {u : Unit}
    (hs : c.scopes = f :: s) (h : Infer.params pos ps c = .ok u c') :
    ∃ g : Frame, c'.scopes = g :: s ∧ ∀ y t, g.get? y = some t → f.get? y = some t ∨ y ∈ ps := by
  induction ps generalizing c f with
  | nil =>
    cases h
    exact ⟨f, hs, fun y t h => .inl h⟩
  | cons p ps ih =>
    obtain ⟨_, c₁, h₁, h₂⟩ := bind_eq_ok.mp h
    obtain ⟨s', hs', rfl⟩ := declare_eq_ok.mp h₁
    rw [hs] at hs'
    have hframe : ∃ f' : Frame, s' = f' :: s ∧ ∀ y t, f'.get? y = some t → f.get? y = some t ∨ y = p := by
      rcases Scopes.declare_eq_ok.mp hs' with ⟨-, rfl⟩ | ⟨-, -, rfl⟩
      · exact ⟨f, rfl, fun y t h => .inl h⟩
      · refine ⟨(p, some .unknown) :: f, rfl, fun y t hy => ?_⟩
        rw [Bindings.get?] at hy
        split at hy
        next heq => exact .inr heq.symm
        next => exact .inl hy
    obtain ⟨f', rfl, hf'⟩ := hframe
    obtain ⟨g, hg, hget⟩ := ih rfl h₂
    refine ⟨g, hg, fun y t hy => ?_⟩
    rcases hget y t hy with hy | hy
    · rcases hf' y t hy with hy | rfl
      · exact .inl hy
      · exact .inr (List.mem_cons_self ..)
    · exact .inr (List.mem_cons_of_mem _ hy)

/-- A function passes if its body does, in a frame of parameters in front of one for the name of the function
if it is recursive, and its name can be declared. -/
theorem funDecl_eq_ok {sub : Node → Check Typing} {f : String} {ps : List String} {b : Node} {r : Bool} :
    Infer.funDecl sub pos f ps b r c = .ok t c' ↔
      ∃ tb c₁ c₂,
        Infer.params pos ps
            ⟨[] :: (if r then [(f, some Ty.anyFunction)] else []) :: c.scopes, c.warnings⟩ = .ok () c₁ ∧
          sub b c₁ = .ok tb c₂ ∧ t = ps.foldl (fun (t : Typing) _ => some t.function) tb ∧
          Check.declare pos f t { c₂ with scopes := c₂.scopes.tail.tail } = .ok () c' := by
  simp only [Infer.funDecl, bind_eq_ok, within_eq_ok, pure_run]
  constructor
  · rintro ⟨tb, _, ⟨_, ⟨c₂, ⟨_, c₁, hps, hb⟩, rfl⟩, rfl⟩, _, _, hdeclare, heq⟩
    cases heq
    exact ⟨tb, c₁, c₂, hps, hb, rfl, hdeclare⟩
  · rintro ⟨tb, c₁, c₂, hps, hb, rfl, hdeclare⟩
    exact ⟨tb, _, ⟨_, ⟨c₂, ⟨_, c₁, hps, hb⟩, rfl⟩, rfl⟩, _, _, hdeclare, rfl⟩

/-- The scopes in which the body of a function is analyzed: a frame of parameters, and one for the name
of the function if it is recursive. -/
def BodyScopes (ps : List String) (f : String) (r : Bool) (s inner : Scopes) : Prop :=
  ∃ g : Frame, inner = g :: (if r then [(f, some Ty.anyFunction)] else []) :: s ∧
    ∀ y t, g.get? y = some t → y ∈ ps

theorem infer_funDecl {f : String} {ps : List String} {b : Node} {r : Bool} (hb : IsExpression b)
    (h : infer depth (.funDecl pos f ps b r) c = .ok t c') :
    ∃ inner tb, BodyScopes ps f r c.scopes inner ∧ Infers inner b tb ∧
      t = ps.foldl (fun (t : Typing) _ => some t.function) tb ∧ c.scopes.declare f t = .ok c'.scopes := by
  cases depth with
  | zero => cases h
  | succ depth =>
    obtain ⟨tb, c₁, c₂, hps, hbody, rfl, hdeclare⟩ := funDecl_eq_ok.mp h
    obtain ⟨g, hg, hget⟩ := params_eq_ok_frame rfl hps
    obtain ⟨hb', hs⟩ := infer_sound depth hb _ _ _ hbody
    obtain ⟨s', hs', rfl⟩ := declare_eq_ok.mp hdeclare
    rw [hs, hg] at hs'
    refine ⟨_, tb, ⟨g, rfl, ?_⟩, hg ▸ hb', rfl, hs'⟩
    exact fun y t h => (hget y t h).resolve_left nofun

end

end Camlet
