import Camlet.Proofs.Inference
import Camlet.Proofs.Printing

/-
  Programs without functions. They neither make nor apply any, and no case of theirs binds a name, so that no
  type is ever unknown: an expression that passes the analysis has one of four kinds, by rules that ask for
  the same kind on both sides of every operator. The rules are stated apart from the analysis, which is shown
  to follow them; what is said of evaluation is said by induction on them.
-/

namespace Camlet

open Stateful

/-- An expression without functions. All patterns of its cases are `_`. -/
inductive FunctionFree : Node → Prop
  | letIn (pos : Pos) (x : String) {v b : Node} :
    FunctionFree v → FunctionFree b → FunctionFree (.letIn pos x v b false)
  | cond (pos : Pos) {c t e : Node} :
    FunctionFree c → FunctionFree t → FunctionFree e → FunctionFree (.cond pos c t e)
  | matching (pos : Pos) {s : Node} {cs : List (Node × Node)} :
    FunctionFree s → cs ≠ [] → (∀ c ∈ cs, ∃ q, c.1 = .wildcard q) → (∀ c ∈ cs, FunctionFree c.2) →
    FunctionFree (.matching pos s cs)
  | binary (pos : Pos) (o : String) {l r : Node} :
    FunctionFree l → FunctionFree r → FunctionFree (.binary pos o l r)
  | unary (pos : Pos) (o : String) {e : Node} : FunctionFree e → FunctionFree (.unary pos o e)
  | intLit (pos : Pos) (n : Int) : FunctionFree (.intLit pos n)
  | floatLit (pos : Pos) (x : Float) : FunctionFree (.floatLit pos x)
  | stringLit (pos : Pos) (s : String) : FunctionFree (.stringLit pos s)
  | charLit (pos : Pos) (s : String) : FunctionFree (.charLit pos s)
  | ident (pos : Pos) (x : String) : FunctionFree (.ident pos x)

/-- A declaration without functions. -/
inductive FunctionFreeDeclaration : Node → Prop
  | letDecl (pos : Pos) (x : String) {v : Node} :
    FunctionFree v → FunctionFreeDeclaration (.letDecl pos x v)
  | exprStmt (pos : Pos) {e : Node} : FunctionFree e → FunctionFreeDeclaration (.exprStmt pos e)

/-! ## Kinds of expressions -/

/-- The kinds of values that are not functions. -/
def basicKinds : List Kind := [.int, .float, .string, .char]

/-- The operator `o` takes two operands of one kind, and gives a value of another. -/
inductive Takes (o : String) : (operand result : Kind) → Prop
  | logical : o ∈ logicalOperators → Takes o .int .int
  | floating : o ∈ floatOperators → Takes o .float .float
  | comparison {k : Kind} : o ∈ comparisonOperators → k = .int ∨ k = .float → Takes o k .int
  | arithmetic {k : Kind} : o ∈ arithmeticOperators → k = .int ∨ k = .float → Takes o k k

/-- The sign `o` takes an operand of the kind, and gives a value of the same. -/
def TakesSign (o : String) (k : Kind) : Prop := k = .float ∨ o ≠ "-." ∧ k = .int

/-- Names of known kinds. -/
abbrev Kinding := String → Option Kind

/-- A name is given a kind, unless it is `_`. -/
def Kinding.bind (g : Kinding) (x : String) (k : Kind) : Kinding :=
  fun y => if x = y ∧ x ≠ "_" then some k else g y

/-- The kind of an expression without functions. -/
inductive HasKind : Kinding → Node → Kind → Prop
  | letIn {g : Kinding} {pos : Pos} {x : String} {v b : Node} {j k : Kind} :
    HasKind g v j → HasKind (g.bind x j) b k → HasKind g (.letIn pos x v b false) k
  | cond {g : Kinding} {pos : Pos} {c t e : Node} {k : Kind} :
    HasKind g c .int → HasKind g t k → HasKind g e k → HasKind g (.cond pos c t e) k
  | matching {g : Kinding} {pos : Pos} {s : Node} {cs : List (Node × Node)} {j k : Kind} :
    HasKind g s j → cs ≠ [] → (∀ c ∈ cs, ∃ q, c.1 = .wildcard q) → (∀ c ∈ cs, HasKind g c.2 k) →
    HasKind g (.matching pos s cs) k
  | binary {g : Kinding} {pos : Pos} {o : String} {l r : Node} {j k : Kind} :
    HasKind g l j → HasKind g r j → Takes o j k → HasKind g (.binary pos o l r) k
  | unary {g : Kinding} {pos : Pos} {o : String} {e : Node} {k : Kind} :
    HasKind g e k → TakesSign o k → HasKind g (.unary pos o e) k
  | intLit {g : Kinding} {pos : Pos} {n : Int} : HasKind g (.intLit pos n) .int
  | floatLit {g : Kinding} {pos : Pos} {x : Float} : HasKind g (.floatLit pos x) .float
  | stringLit {g : Kinding} {pos : Pos} {s : String} : HasKind g (.stringLit pos s) .string
  | charLit {g : Kinding} {pos : Pos} {s : String} : HasKind g (.charLit pos s) .char
  | ident {g : Kinding} {pos : Pos} {x : String} {k : Kind} : g x = some k → HasKind g (.ident pos x) k

section

variable {o : String} {j k : Kind}

theorem basic_ne_unknown (hk : k ∈ basicKinds) : k ≠ .unknown := by
  rintro rfl
  exact absurd hk (by decide)

theorem Takes.result_basic (h : Takes o j k) : k ∈ basicKinds := by
  cases h with
  | logical | floating | comparison => decide
  | arithmetic _ hk => rcases hk with rfl | rfl <;> decide

theorem Takes.numeric (h : Takes o j k) : j = .int ∨ j = .float := by
  cases h with
  | logical => exact .inl rfl
  | floating => exact .inr rfl
  | comparison _ hj | arithmetic _ hj => exact hj

theorem Takes.mem_operatorNames (h : Takes o j k) : o ∈ operatorNames := by
  have hall : ∀ p ∈ logicalOperators ++ floatOperators ++ comparisonOperators ++ arithmeticOperators,
      p ∈ operatorNames := by decide
  refine hall o ?_
  simp only [List.mem_append]
  cases h with
  | logical ho => exact .inl (.inl (.inl ho))
  | floating ho => exact .inl (.inl (.inr ho))
  | comparison ho => exact .inl (.inr ho)
  | arithmetic ho => exact .inr ho

end

theorem HasKind.isExpression {g : Kinding} {e : Node} {k : Kind} (h : HasKind g e k) : IsExpression e := by
  induction h with
  | letIn _ _ ihv ihb => exact .letIn _ _ ihv nofun ihb
  | cond _ _ _ ihc iht ihe => exact .cond _ ihc iht ihe
  | matching _ hne hwild _ ihs ihe =>
    refine .matching _ ihs hne (fun c hc => ?_) ihe
    obtain ⟨q, hq⟩ := hwild c hc
    exact hq ▸ .wildcard q
  | binary _ _ ho ihl ihr => exact .binary _ _ ihl ihr ho.mem_operatorNames
  | unary _ _ ih => exact .unary _ _ ih
  | intLit => exact .intLit _ _
  | floatLit => exact .floatLit _ _
  | stringLit => exact .stringLit _ _
  | charLit => exact .charLit _ _
  | ident => exact .ident _ _

theorem HasKind.height_pos {g : Kinding} {e : Node} {k : Kind} (h : HasKind g e k) : 0 < e.height := by
  cases h <;> simp [Node.height]

/-! ## The analysis follows the rules -/

/-- What the scopes say of the kinds of names. -/
structure Describes (g : Kinding) (s : Scopes) : Prop where
  lookup : ∀ x, s.lookup? x = (g x).map fun k => some ⟨k, []⟩
  basic : ∀ x k, g x = some k → k ∈ basicKinds

section

variable {g : Kinding} {s s' : Scopes} {x : String} {j k : Kind}

theorem Describes.nil (h : Describes g s) : Describes g ([] :: s) := ⟨h.lookup, h.basic⟩

theorem Describes.declare (h : Describes g s) (hk : k ∈ basicKinds)
    (hx : s.declare x (some ⟨k, []⟩) = .ok s') : Describes (g.bind x k) s' := by
  constructor
  · intro y
    rw [Scopes.lookup?_declare hx, Kinding.bind]
    split
    · rfl
    · exact h.lookup y
  · intro y l hl
    unfold Kinding.bind at hl
    split at hl
    · cases hl
      exact hk
    · exact h.basic y l hl

theorem compatible_iff (hj : j ≠ .unknown) (hk : k ≠ .unknown) :
    Typing.compatible (some ⟨j, []⟩) (some ⟨k, []⟩) = true ↔ j = k := by
  simp [Typing.compatible, Typing.isKind, Typing.same, hj, hk]

theorem isNumeric_iff (hk : k ≠ .unknown) :
    Typing.isNumeric (some ⟨k, []⟩) = true ↔ k = .int ∨ k = .float := by
  simp [Typing.isNumeric, Typing.isKind, hk]

theorem unify_eq (hj : j ≠ .unknown) (t : Typing) : Typing.unify (some ⟨j, []⟩) t = some ⟨j, []⟩ := by
  simp [Typing.unify, Typing.isKind, hj]

/-- Operands of basic kinds that an operator takes are of one kind. -/
theorem Operates.takes {o : String} {t : Typing} (hj : j ∈ basicKinds) (hk : k ∈ basicKinds)
    (h : Operates o (some ⟨j, []⟩) (some ⟨k, []⟩) t) : k = j ∧ ∃ l, t = some ⟨l, []⟩ ∧ Takes o j l := by
  have hj' := basic_ne_unknown hj
  have hk' := basic_ne_unknown hk
  cases h with
  | logical ho hl hr =>
    obtain rfl := (compatible_iff (k := .int) hj' nofun).mp hl
    obtain rfl := (compatible_iff (k := .int) hk' nofun).mp hr
    exact ⟨rfl, .int, rfl, .logical ho⟩
  | floating ho hl hr =>
    obtain rfl := (compatible_iff (k := .float) hj' nofun).mp hl
    obtain rfl := (compatible_iff (k := .float) hk' nofun).mp hr
    exact ⟨rfl, .float, rfl, .floating ho⟩
  | comparison ho hl _ hsame =>
    obtain rfl := (compatible_iff hj' hk').mp hsame
    exact ⟨rfl, .int, rfl, .comparison ho ((isNumeric_iff hj').mp hl)⟩
  | arithmetic ho hl _ hsame =>
    obtain rfl := (compatible_iff hj' hk').mp hsame
    have hnum := (isNumeric_iff hj').mp hl
    refine ⟨rfl, j, ?_, .arithmetic ho hnum⟩
    rcases hnum with rfl | rfl <;> rfl

end

/-- What the analysis has found of an expression that it passed: its kind, by the rules, and that it is not
nested too deeply. The scopes are as before. -/
structure Kinded (depth : Nat) (g : Kinding) (e : Node) (t : Typing) (s s' : Scopes) (k : Kind) : Prop where
  basic : k ∈ basicKinds
  type : t = some ⟨k, []⟩
  rules : HasKind g e k
  height : e.height ≤ depth
  scopes : s' = s

/-- What a rule may take for granted of the nodes below. -/
def Kinds (depth : Nat) (sub : Node → Check Typing) (e : Node) : Prop :=
  ∀ {g : Kinding} {c c' : Context} {t : Typing}, Describes g c.scopes → sub e c = .ok t c' →
    ∃ k, Kinded depth g e t c.scopes c'.scopes k

section

variable {depth : Nat} {sub : Node → Check Typing} {g : Kinding} {c c' : Context} {t : Typing}

theorem kinded_letIn {pos : Pos} {x : String} {v b : Node} (hv : Kinds depth sub v)
    (hb : Kinds depth sub b) (hg : Describes g c.scopes)
    (h : Infer.letIn sub pos x v b false c = .ok t c') :
    ∃ k, Kinded (depth + 1) g (.letIn pos x v b false) t c.scopes c'.scopes k := by
  obtain ⟨tv, ⟨s, ws⟩, c₂, c₃, h₁, h₂, h₃, rfl⟩ := letIn_eq_ok.mp h
  obtain ⟨j, hj, rfl, hv', hvh, hs⟩ := hv hg.nil h₁
  obtain rfl : s = [] :: c.scopes := hs
  obtain ⟨s', hs', rfl⟩ := declare_eq_ok.mp h₂
  obtain ⟨k, hk, rfl, hb', hbh, hs₃⟩ := hb (hg.nil.declare hj hs') h₃
  refine ⟨k, hk, rfl, .letIn hv' hb', ?_, ?_⟩
  · rw [Node.height]
    omega
  · obtain rfl := Except.ok.inj (hs'.symm.trans declare_fresh)
    rw [hs₃]
    rfl

theorem kinded_cond {pos : Pos} {n m e : Node} (hn : Kinds depth sub n) (hm : Kinds depth sub m)
    (he : Kinds depth sub e) (hg : Describes g c.scopes) (h : Infer.cond sub pos n m e c = .ok t c') :
    ∃ k, Kinded (depth + 1) g (.cond pos n m e) t c.scopes c'.scopes k := by
  obtain ⟨tn, c₁, tm, c₂, te, h₁, hint, h₂, h₃, hsame, rfl⟩ := cond_eq_ok h
  obtain ⟨i, hi, rfl, hn', hnh, hs₁⟩ := hn hg h₁
  obtain ⟨j, hj, rfl, hm', hmh, hs₂⟩ := hm (hs₁ ▸ hg) h₂
  obtain ⟨k, hk, rfl, he', heh, hs₃⟩ := he (hs₂ ▸ hs₁ ▸ hg) h₃
  obtain rfl := (compatible_iff (k := .int) (basic_ne_unknown hi) nofun).mp hint
  obtain rfl := (compatible_iff (basic_ne_unknown hj) (basic_ne_unknown hk)).mp hsame
  refine ⟨j, hj, unify_eq (basic_ne_unknown hj) _, .cond hn' hm' he', ?_, by rw [hs₃, hs₂, hs₁]⟩
  rw [Node.height]
  omega

/-- Once a case has a kind, all that follow have the same. -/
theorem kinded_cases {before : Kind} {all : Option Node} {cs : List (Node × Node)}
    (hwild : ∀ p ∈ cs, ∃ q, p.1 = .wildcard q) (he : ∀ p ∈ cs, Kinds depth sub p.2)
    (hg : Describes g c.scopes) (hbefore : before ∈ basicKinds)
    (h : Infer.cases sub (some ⟨before, []⟩) all cs c = .ok t c') :
    t = some ⟨before, []⟩ ∧ (∀ p ∈ cs, HasKind g p.2 before) ∧ Node.casesHeight cs ≤ depth ∧
      c'.scopes = c.scopes := by
  induction cs generalizing all c with
  | nil =>
    cases h
    exact ⟨rfl, nofun, Nat.zero_le _, rfl⟩
  | cons p cs ih =>
    obtain ⟨p, e⟩ := p
    obtain ⟨⟨q, rfl⟩, hwilds⟩ := List.forall_mem_cons.mp hwild
    obtain ⟨he, hes⟩ := List.forall_mem_cons.mp he
    obtain ⟨ws, te, c₁, all', h₁, hsame, hrest⟩ := cases_cons_eq_ok h
    obtain ⟨k, hk, rfl, he', heh, hs₁⟩ := he (c := ⟨[] :: c.scopes, ws⟩) hg.nil h₁
    obtain rfl := (compatible_iff (basic_ne_unknown hbefore) (basic_ne_unknown hk)).mp (hsame rfl)
    have hjoin : Typing.join (some ⟨before, []⟩) (some ⟨before, []⟩) = some ⟨before, []⟩ :=
      unify_eq (basic_ne_unknown hbefore) _
    rw [hjoin, hs₁] at hrest
    obtain ⟨rfl, hcs, hcsh, hs₂⟩ := ih (c := ⟨c.scopes, c₁.warnings⟩) hwilds hes hg hrest
    exact ⟨rfl, List.forall_mem_cons.mpr ⟨he', hcs⟩, Nat.max_le.mpr ⟨heh, hcsh⟩, hs₂⟩

theorem kinded_matching {pos : Pos} {n : Node} {cs : List (Node × Node)} (hn : Kinds depth sub n)
    (hne : cs ≠ []) (hwild : ∀ p ∈ cs, ∃ q, p.1 = .wildcard q) (he : ∀ p ∈ cs, Kinds depth sub p.2)
    (hg : Describes g c.scopes) (h : Infer.matching sub n cs c = .ok t c') :
    ∃ k, Kinded (depth + 1) g (.matching pos n cs) t c.scopes c'.scopes k := by
  obtain ⟨tn, c₁, h₁, h₂⟩ := bind_eq_ok.mp h
  obtain ⟨j, hj, rfl, hn', hnh, hs₁⟩ := hn hg h₁
  obtain ⟨⟨p, e⟩, cs, rfl⟩ := List.exists_cons_of_ne_nil hne
  have hg₁ : Describes g c₁.scopes := hs₁ ▸ hg
  -- The first case says of which kind they are.
  obtain ⟨⟨q, rfl⟩, hwilds⟩ := List.forall_mem_cons.mp hwild
  obtain ⟨he, hes⟩ := List.forall_mem_cons.mp he
  obtain ⟨ws, te, c₂, all', h₃, -, hrest⟩ := cases_cons_eq_ok h₂
  obtain ⟨k, hk, rfl, he', heh, hs₂⟩ := he (c := ⟨[] :: c₁.scopes, ws⟩) hg₁.nil h₃
  rw [hs₂] at hrest
  obtain ⟨rfl, hcs, hcsh, hs₃⟩ :=
    kinded_cases (c := ⟨c₁.scopes, c₂.warnings⟩) hwilds hes hg₁ hk hrest
  refine ⟨k, hk, rfl, .matching hn' hne hwild (List.forall_mem_cons.mpr ⟨he', hcs⟩), ?_, hs₃.trans hs₁⟩
  exact Nat.succ_le_succ (Nat.max_le.mpr ⟨hnh, Nat.max_le.mpr ⟨heh, hcsh⟩⟩)

theorem kinded_binary {pos : Pos} {o : String} {l r : Node} (hl : Kinds depth sub l)
    (hr : Kinds depth sub r) (hg : Describes g c.scopes)
    (h : Infer.binary sub pos o l r c = .ok t c') :
    ∃ k, Kinded (depth + 1) g (.binary pos o l r) t c.scopes c'.scopes k := by
  obtain ⟨tl, c₁, tr, h₁, h₂, hop⟩ := binary_eq_ok h
  obtain ⟨i, hi, rfl, hl', hlh, hs₁⟩ := hl hg h₁
  obtain ⟨j, hj, rfl, hr', hrh, hs₂⟩ := hr (hs₁ ▸ hg) h₂
  obtain ⟨rfl, k, rfl, htakes⟩ := hop.takes hi hj
  refine ⟨k, htakes.result_basic, rfl, .binary hl' hr' htakes, ?_, hs₂.trans hs₁⟩
  rw [Node.height]
  omega

theorem kinded_unary {pos : Pos} {o : String} {e : Node} (he : Kinds depth sub e)
    (hg : Describes g c.scopes) (h : Infer.unary sub pos o e c = .ok t c') :
    ∃ k, Kinded (depth + 1) g (.unary pos o e) t c.scopes c'.scopes k := by
  obtain ⟨te, h₁, hsign⟩ := unary_eq_ok h
  obtain ⟨k, hk, rfl, he', heh, hs⟩ := he hg h₁
  have hk' := basic_ne_unknown hk
  have hheight : (Node.unary pos o e).height ≤ depth + 1 := Nat.succ_le_succ heh
  rcases hsign with ⟨rfl, hfloat, rfl⟩ | ⟨ho, hnum, rfl⟩
  · obtain rfl := (compatible_iff (k := .float) hk' nofun).mp hfloat
    exact ⟨.float, hk, rfl, .unary he' (.inl rfl), hheight, hs⟩
  · refine ⟨k, hk, ?_, .unary he' ?_, hheight, hs⟩
    · simp [Typing.isKind, hk']
    · rcases (isNumeric_iff hk').mp hnum with rfl | rfl
      · exact .inr ⟨ho, rfl⟩
      · exact .inl rfl

end

/-- An expression without functions that passes the analysis has a kind by the rules, and the type that is
found for it is that kind. -/
theorem infer_kinds (depth : Nat) {e : Node} (he : FunctionFree e) : Kinds depth (infer depth) e := by
  induction depth generalizing e with
  | zero => exact fun _ h => nomatch h
  | succ depth ih =>
    intro g c c' t hg h
    cases he with
    | letIn pos x hv hb => exact kinded_letIn (ih hv) (ih hb) hg h
    | cond pos hc ht he => exact kinded_cond (ih hc) (ih ht) (ih he) hg h
    | matching pos hs hne hwild he => exact kinded_matching (ih hs) hne hwild (fun p hp => ih (he p hp)) hg h
    | binary pos o hl hr => exact kinded_binary (ih hl) (ih hr) hg h
    | unary pos o he => exact kinded_unary (ih he) hg h
    | intLit => cases h; exact ⟨.int, by decide, rfl, .intLit, Nat.le_add_left .., rfl⟩
    | floatLit => cases h; exact ⟨.float, by decide, rfl, .floatLit, Nat.le_add_left .., rfl⟩
    | stringLit => cases h; exact ⟨.string, by decide, rfl, .stringLit, Nat.le_add_left .., rfl⟩
    | charLit => cases h; exact ⟨.char, by decide, rfl, .charLit, Nat.le_add_left .., rfl⟩
    | ident pos x =>
      obtain ⟨hx, rfl⟩ := lookup_eq_ok.mp h
      rw [hg.lookup] at hx
      obtain ⟨k, hk, rfl⟩ := Option.map_eq_some_iff.mp hx
      exact ⟨k, hg.basic x k hk, rfl, .ident hk, Nat.le_add_left .., rfl⟩

end Camlet
