import Camlet.Proofs.Inference
import Camlet.Evaluation.Basic

/-
  Kinds that are certain. The analysis guesses: a value of which nothing is known passes for a value of
  every type, and the type of an expression is taken from the parts of which something is known. The
  kinds that are certain of an expression are found without a guess, from the kinds that are certain of
  names: nothing is certain of a parameter, and of a conditional only what is certain of both of its
  branches. What is certain is also what the analysis finds.
-/

namespace Camlet

/-- What is certain of names: the kind of the value, the kind that applying it gives, and so on. -/
abbrev Known := String → List Kind

namespace Known

/-- Nothing is certain. -/
def nothing : Known := fun _ => []

/-- Binds a name of which `ks` is certain. Of the name `_`, which is not declared, nothing is. -/
def learn (known : Known) (x : String) (ks : List Kind) : Known :=
  fun y => if y = x then (if x = "_" then [] else ks) else known y

/-- Binds the name of a pattern. -/
def learnPattern (known : Known) : Node → Known
  | .bind _ x => known.learn x []
  | _ => known

end Known

namespace Certain

/-- What is certain of a value that is one of two. -/
def common : List Kind → List Kind → List Kind
  | k :: ks, l :: ls => if k = l then k :: common ks ls else []
  | _, _ => []

/-- What is certain of the result of an application. -/
def result : List Kind → List Kind
  | .function :: ks => ks
  | _ => []

/-- What is certain of the result of an operator on numbers of any kind. -/
def arithmetic (l r : List Kind) : List Kind :=
  if l.head? = some .float ∨ r.head? = some .float then [.float]
  else if l.head? = some .int ∧ r.head? = some .int then [.int]
  else []

/-- What is certain of the result of a binary operator. -/
def binary (operator : String) (l r : List Kind) : List Kind :=
  if operator ∈ logicalOperators ∨ operator ∈ comparisonOperators then [.int]
  else if operator ∈ floatOperators then [.float]
  else if operator ∈ arithmeticOperators then arithmetic l r
  else []

section

variable {o : String} {l r : List Kind}

theorem binary_truth (h : o ∈ logicalOperators ∨ o ∈ comparisonOperators) : binary o l r = [.int] :=
  if_pos h

theorem binary_floating (h : o ∈ floatOperators) : binary o l r = [.float] := by
  have hother : ∀ o ∈ floatOperators, ¬ (o ∈ logicalOperators ∨ o ∈ comparisonOperators) := by decide
  rw [binary, if_neg (hother o h), if_pos h]

theorem binary_arithmetic (h : o ∈ arithmeticOperators) : binary o l r = arithmetic l r := by
  have hother : ∀ o ∈ arithmeticOperators,
      ¬ (o ∈ logicalOperators ∨ o ∈ comparisonOperators) ∧ o ∉ floatOperators := by decide
  rw [binary, if_neg (hother o h).1, if_neg (hother o h).2, if_pos h]

end

/-- What is certain of the result of a sign. -/
def unary (operator : String) (ks : List Kind) : List Kind :=
  if operator = "-." then [.float] else ks.take 1

end Certain

namespace Node

mutual

/-- What is certain of the value of an expression. -/
def sure (known : Known) : Node → List Kind
  | letIn _ x v b r =>
    b.sure (known.learn x (v.sure (if r then known.learn x [.function] else known)))
  | cond _ _ t e => Certain.common (t.sure known) (e.sure known)
  | matching _ _ cs => casesSure known cs
  | lambda _ p b => .function :: b.sure (known.learn p [])
  | apply _ f _ => Certain.result (f.sure known)
  | binary _ o l r => Certain.binary o (l.sure known) (r.sure known)
  | unary _ o e => Certain.unary o (e.sure known)
  | intLit .. => [.int]
  | floatLit .. => [.float]
  | stringLit .. => [.string]
  | charLit .. => [.char]
  | ident _ x => known x
  | _ => []

/-- What is certain of the value of the first case, as that is taken. -/
def casesSure (known : Known) : List (Node × Node) → List Kind
  | [] => []
  | (p, e) :: _ => e.sure (known.learnPattern p)

end

/-- What is certain of the value that a declaration binds. -/
def certain (known : Known) : Node → List Kind
  | letDecl _ _ v => v.sure known
  | funDecl pos f ps b r => (curry pos ps b).sure (if r then known.learn f [.function] else known)
  | _ => []

end Node

/-- What is known of names holds of what they are bound to, where something is known. -/
def Backed {α : Type} (R : List Kind → α → Prop) (known : Known) (get? : String → Option α) : Prop :=
  ∀ x, known x ≠ [] → ∃ a, get? x = some a ∧ R (known x) a

section

variable {α : Type} {R : List Kind → α → Prop} {known : Known} {get? get?' : String → Option α}
  {x : String} {ks : List Kind}

theorem backed_nothing : Backed R .nothing get? := fun _ h => absurd rfl h

/-- Binding a name keeps what is known of the others. -/
theorem Backed.learn (h : Backed R known get?)
    (hx : x ≠ "_" → ks ≠ [] → ∃ a, get?' x = some a ∧ R ks a) (hy : ∀ y, y ≠ x → get?' y = get? y) :
    Backed R (known.learn x ks) get?' := by
  intro y hne
  unfold Known.learn at hne ⊢
  by_cases hyx : y = x
  · subst hyx
    by_cases hwild : y = "_"
    · simp [hwild] at hne
    · simp only [if_true, hwild, if_false] at hne ⊢
      exact hx hwild hne
  · simp only [hyx, if_false] at hne ⊢
    rw [hy y hyx]
    exact h y hne

/-- A name of which nothing is known may be bound to anything. -/
theorem Backed.forget (h : Backed R known get?) (hy : ∀ y, y ≠ x → get?' y = get? y) :
    Backed R (known.learn x []) get?' := h.learn (fun _ hne => absurd rfl hne) hy

/-- What is known of a name that is bound holds, even if that is nothing. -/
theorem Backed.get (h : Backed R known get?) (hnil : ∀ a, R [] a) {a : α} (ha : get? x = some a) :
    R (known x) a := by
  by_cases hx : known x = []
  · rw [hx]
    exact hnil a
  · obtain ⟨b, hb, hR⟩ := h x hx
    rw [ha] at hb
    cases hb
    exact hR

end

/-! ## What is certain is found -/

/-- The kinds that a type tells of: that of the value, and those that applying it gives. -/
def Typing.kinds : Typing → List Kind
  | some t => t.kind :: t.results
  | none => []

/-- Kinds that a type tells of, none of them unknown. -/
structure Agrees (ks : List Kind) (t : Typing) : Prop where
  told : ks <+: t.kinds
  known : Kind.unknown ∉ ks

theorem agrees_nil (t : Typing) : Agrees [] t := ⟨List.nil_prefix, nofun⟩

namespace Agrees

variable {ks ls : List Kind} {t u : Typing}

/-- A type that tells of a certain kind is known. -/
theorem isKind_cons {k : Kind} (h : Agrees (k :: ks) t) : ∃ ty, t = some ty ∧ ty.kind = k ∧ k ≠ .unknown := by
  cases t with
  | none => exact absurd h.told (by simp [Typing.kinds])
  | some ty =>
    refine ⟨ty, rfl, ((List.cons_prefix_cons.mp h.told).1).symm, ?_⟩
    rintro rfl
    exact h.known (List.mem_cons_self ..)

theorem shorten (h : Agrees ks t) (hp : ls <+: ks) : Agrees ls t :=
  ⟨hp.trans h.told, fun hmem => h.known (hp.subset hmem)⟩

/-- What is certain of one type stays certain when a compatible one joins it. -/
theorem join (h : Agrees ks t) (u : Typing) : Agrees ks (t.join u) := by
  cases ks with
  | nil => exact agrees_nil _
  | cons k ks =>
    obtain ⟨ty, rfl, hty, hk⟩ := h.isKind_cons
    have hjoin : Typing.join (some ty) u = some ty := by
      simp [Typing.join, Typing.unify, Typing.isKind, hty, hk]
    rw [hjoin]
    exact h

theorem foldl_join (h : Agrees ks t) (us : List Typing) : Agrees ks (us.foldl Typing.join t) := by
  induction us generalizing t with
  | nil => exact h
  | cons u us ih => exact ih (h.join u)

theorem function (h : Agrees ks t) : Agrees (.function :: ks) (some t.function) := by
  refine ⟨?_, by simpa using h.known⟩
  cases t with
  | none => exact List.cons_prefix_cons.mpr ⟨rfl, h.told⟩
  | some ty => exact List.cons_prefix_cons.mpr ⟨rfl, h.told⟩

end Agrees

namespace Certain

theorem common_left (ks ls : List Kind) : common ks ls <+: ks := by
  induction ks generalizing ls with
  | nil => exact List.nil_prefix
  | cons k ks ih =>
    cases ls with
    | nil => exact List.nil_prefix
    | cons l ls =>
      rw [common]
      split
      · exact List.cons_prefix_cons.mpr ⟨rfl, ih ls⟩
      · exact List.nil_prefix

theorem common_right (ks ls : List Kind) : common ks ls <+: ls := by
  induction ks generalizing ls with
  | nil => exact List.nil_prefix
  | cons k ks ih =>
    cases ls with
    | nil => exact List.nil_prefix
    | cons l ls =>
      rw [common]
      split
      next h => exact List.cons_prefix_cons.mpr ⟨h, ih ls⟩
      next => exact List.nil_prefix

end Certain

section

variable {ks ls : List Kind} {t u : Typing}

/-- What is certain of both branches is certain of the type of either. -/
theorem agrees_common (ht : Agrees ks t) (hu : Agrees ls u) :
    Agrees (Certain.common ks ls) (t.unify u) := by
  unfold Typing.unify
  split
  · exact hu.shorten (Certain.common_right ks ls)
  · exact ht.shorten (Certain.common_left ks ls)

theorem agrees_result {ty : Ty} (h : Agrees ks (some ty)) :
    Agrees (Certain.result ks) (some (ty.returns?.getD .unknown)) := by
  unfold Certain.result
  split
  next ls =>
    obtain ⟨-, hls⟩ := List.cons_prefix_cons.mp h.told
    refine ⟨?_, fun hmem => h.known (List.mem_cons_of_mem _ hmem)⟩
    unfold Ty.returns?
    cases hres : ty.results with
    | nil =>
      rw [hres] at hls
      rw [List.prefix_nil.mp hls]
      exact List.nil_prefix
    | cons k rs =>
      rw [hres] at hls
      exact hls
  next => exact agrees_nil _

theorem agrees_singleton (ty : Ty) (h : ty.kind ≠ .unknown) : Agrees [ty.kind] (some ty) :=
  ⟨List.cons_prefix_cons.mpr ⟨rfl, List.nil_prefix⟩, by simpa using h.symm⟩

theorem isKind_of_head {k : Kind} (h : Agrees ks t) (hk : ks.head? = some k) : t.isKind k = true := by
  cases ks with
  | nil => cases hk
  | cons l ls =>
    cases hk
    obtain ⟨ty, rfl, hty, -⟩ := h.isKind_cons
    simp [Typing.isKind, hty]

theorem agrees_arithmetic (ht : Agrees ks t) (hu : Agrees ls u) :
    Agrees (Certain.arithmetic ks ls)
      (some (if t.isKind .float || u.isKind .float then Ty.float else .int)) := by
  unfold Certain.arithmetic
  split
  next h =>
    have hfloat : (t.isKind .float || u.isKind .float) = true := by
      rw [Bool.or_eq_true]
      exact h.imp (isKind_of_head ht) (isKind_of_head hu)
    rw [hfloat]
    exact agrees_singleton .float (by decide)
  next =>
    split
    next h =>
      have hint : (t.isKind .float || u.isKind .float) = false := by
        have h₁ := isKind_of_head ht h.1
        have h₂ := isKind_of_head hu h.2
        simp only [Typing.isKind, beq_iff_eq] at h₁ h₂
        simp [Typing.isKind, h₁, h₂]
      rw [hint]
      exact agrees_singleton .int (by decide)
    next => exact agrees_nil _

theorem agrees_unary (h : Agrees ks t) : Agrees (ks.take 1) (if t.isKind .unknown then some .int else t) := by
  cases ks with
  | nil => exact agrees_nil _
  | cons k ks =>
    obtain ⟨ty, rfl, hty, hk⟩ := h.isKind_cons
    have hknown : Typing.isKind (some ty) .unknown = false := by simp [Typing.isKind, hty, hk]
    rw [hknown]
    exact h.shorten (List.take_prefix 1 (k :: ks))

end

/-- What is certain in scopes. -/
abbrev ScopesAgree (known : Known) (s : Scopes) : Prop := Backed Agrees known s.lookup?

section

variable {known : Known} {s : Scopes} {x : String} {ks : List Kind} {t : Typing}

theorem lookup?_cons {f : Frame} {y : String} (h : f.get? y = none) :
    Scopes.lookup? (f :: s) y = s.lookup? y := by
  simp [Scopes.lookup?, h]

theorem get?_own_of_ne {y : String} (h : y ≠ x) : (Frame.own x t).get? y = none := by
  by_cases hx : x = "_"
  · simp [Frame.own, hx]
  · simp [Frame.own, hx, Bindings.get?, Ne.symm h]

/-- A frame in front that declares one name. -/
theorem ScopesAgree.own (h : ScopesAgree known s) (hks : Agrees ks t) :
    ScopesAgree (known.learn x ks) (Frame.own x t :: s) := by
  refine h.learn (fun hx _ => ⟨t, ?_, hks⟩) fun y hy => lookup?_cons (get?_own_of_ne hy)
  simp [Frame.own, hx, Scopes.lookup?, Bindings.get?]

theorem ScopesAgree.ofPattern (h : ScopesAgree known s) (p : Node) :
    ScopesAgree (known.learnPattern p) (Frame.ofPattern p :: s) := by
  cases p with
  | bind pos x => exact ScopesAgree.own h (agrees_nil _)
  | _ => exact h

/-- What is certain of an expression is what the analysis finds. -/
theorem Infers.agrees {e : Node} (h : Infers s e t) :
    ∀ {known : Known}, ScopesAgree known s → Agrees (e.sure known) t := by
  induction h with
  | letIn _ _ hv hb => exact fun hs => hb (ScopesAgree.own hs (hv hs))
  | @letRec s pos x v b tv tb _ _ hv hb =>
    intro known hs
    have hself : ScopesAgree (known.learn x [.function]) (Frame.own x (some .anyFunction) :: s) :=
      ScopesAgree.own hs (agrees_singleton .anyFunction (by decide))
    refine hb (Backed.learn hs (fun _ _ => ⟨tv, ?_, hv hself⟩) fun y hy => ?_)
    · simp [Scopes.lookup?, Bindings.get?]
    · refine lookup?_cons ?_
      rw [Bindings.get?, if_neg (Ne.symm hy)]
      exact get?_own_of_ne hy
  | cond _ _ _ _ _ ht he => exact fun hs => agrees_common (ht hs) (he hs)
  | @matching s pos n cs tn ts _ hlen _ _ hcs =>
    intro known hs
    cases cs with
    | nil => exact agrees_nil _
    | cons c cs =>
      obtain ⟨p, e⟩ := c
      cases ts with
      | nil => cases hlen
      | cons t ts =>
        have hfirst : Agrees (e.sure (known.learnPattern p)) t :=
          hcs ((p, e), t) (List.mem_cons_self ..) (ScopesAgree.ofPattern hs p)
        exact hfirst.foldl_join ts
  | lambda _ hb => exact fun hs => (hb (ScopesAgree.own hs (agrees_nil _))).function
  | apply _ _ _ hf _ => exact fun hs => agrees_result (hf hs)
  | @applyUnknown s pos f a tf ta _ _ hun hf _ =>
    intro known hs
    -- Of a function of which nothing is known nothing is certain.
    have hnil : f.sure known = [] := by
      cases hks : f.sure known with
      | nil => rfl
      | cons k ks =>
        obtain ⟨ty, hty, hkind, hne⟩ := (hks ▸ hf hs : Agrees (k :: ks) (some tf)).isKind_cons
        cases hty
        exact absurd (hkind.symm.trans hun) hne
    rw [Node.sure, hnil]
    exact agrees_nil _
  | logical _ _ ho =>
    intro known hs
    rw [Node.sure, Certain.binary_truth (.inl ho)]
    exact agrees_singleton .int (by decide)
  | comparison _ _ ho =>
    intro known hs
    rw [Node.sure, Certain.binary_truth (.inr ho)]
    exact agrees_singleton .int (by decide)
  | floating _ _ ho =>
    intro known hs
    rw [Node.sure, Certain.binary_floating ho]
    exact agrees_singleton .float (by decide)
  | arithmetic _ _ ho hl hr =>
    intro known hs
    rw [Node.sure, Certain.binary_arithmetic ho]
    exact agrees_arithmetic (hl hs) (hr hs)
  | floatSign =>
    intro known hs
    rw [Node.sure, Certain.unary, if_pos rfl]
    exact agrees_singleton .float (by decide)
  | sign _ ho _ he =>
    intro known hs
    rw [Node.sure, Certain.unary, if_neg ho]
    exact agrees_unary (he hs)
  | intLit => exact fun _ => agrees_singleton .int (by decide)
  | floatLit => exact fun _ => agrees_singleton .float (by decide)
  | stringLit => exact fun _ => agrees_singleton .string (by decide)
  | charLit => exact fun _ => agrees_singleton .char (by decide)
  | ident hx => exact fun hs => hs.get agrees_nil hx

end

/-! ## Declarations -/

namespace Known

/-- Binds names of which nothing is certain. -/
def learnParams (known : Known) (ps : List String) : Known := ps.foldl (fun k p => k.learn p []) known

theorem learnParams_apply (known : Known) (ps : List String) (y : String) :
    known.learnParams ps y = if y ∈ ps then [] else known y := by
  unfold learnParams
  induction ps generalizing known with
  | nil => simp
  | cons p ps ih =>
    rw [List.foldl_cons, ih]
    by_cases hmem : y ∈ ps
    · simp [hmem]
    · by_cases hyp : y = p <;> simp [learn, hmem, hyp]

/-- What is certain after a declaration: of its name what is certain of its value, if it has one. -/
def step (known : Known) (d : Node) (o : Outcome) : Known :=
  match d.name?, o with
  | some x, .ok _ => known.learn x (d.certain known)
  | some x, .error _ => known.learn x []
  | none, _ => known

/-- What is certain after declarations that came to some outcomes. -/
def along (known : Known) : List Node → List Outcome → Known
  | d :: ds, o :: os => (known.step d o).along ds os
  | _, _ => known

end Known

theorem sure_curry (pos : Pos) (ps : List String) (b : Node) (known : Known) :
    (Node.curry pos ps b).sure known =
      List.replicate ps.length .function ++ b.sure (known.learnParams ps) := by
  induction ps generalizing known with
  | nil => rfl
  | cons p ps ih => exact congrArg (Kind.function :: ·) (ih (known.learn p []))

theorem agrees_functions {ks : List Kind} {t : Typing} (h : Agrees ks t) (ps : List String) :
    Agrees (List.replicate ps.length .function ++ ks)
      (ps.foldl (fun (t : Typing) _ => some t.function) t) := by
  induction ps generalizing ks t with
  | nil => exact h
  | cons p ps ih =>
    have hlater := ih h.function
    rwa [List.length_cons, List.replicate_succ', List.append_assoc]

section

variable {known : Known} {s : Scopes}

theorem BodyScopes.agree {ps : List String} {f : String} {r : Bool} {inner : Scopes}
    (h : BodyScopes ps f r s inner) (hs : ScopesAgree known s) :
    ScopesAgree ((if r then known.learn f [.function] else known).learnParams ps) inner := by
  obtain ⟨g, rfl, hget⟩ := h
  have hself : ScopesAgree (if r then known.learn f [.function] else known)
      ((if r then [(f, some Ty.anyFunction)] else []) :: s) := by
    cases r with
    | false => exact hs
    | true =>
      refine Backed.learn hs (fun _ _ => ⟨some .anyFunction, ?_, ?_⟩) fun y hy => ?_
      · simp [Scopes.lookup?, Bindings.get?]
      · exact agrees_singleton .anyFunction (by decide)
      · exact lookup?_cons (by simp [Bindings.get?, Ne.symm hy])
  intro y hne
  rw [Known.learnParams_apply] at hne ⊢
  by_cases hmem : y ∈ ps
  · simp [hmem] at hne
  · rw [if_neg hmem] at hne ⊢
    have hg : g.get? y = none := by
      cases hgy : g.get? y with
      | none => rfl
      | some t => exact absurd (hget y t hgy) hmem
    rw [lookup?_cons hg]
    exact hself y hne

/-- What is certain of a declaration is what the analysis finds, and so it stays for declarations to
come. -/
theorem declaration_agrees {depth : Nat} {c c' : Context} {d : Node} {t : Typing} (hd : IsDeclaration d)
    (h : infer depth d c = .ok t c') (hs : ScopesAgree known c.scopes) :
    Agrees (d.certain known) t ∧ ∀ o, ScopesAgree (known.step d o) c'.scopes := by
  have hdeclare : ∀ {x ks}, c.scopes.declare x t = .ok c'.scopes → Agrees ks t →
      ScopesAgree (known.learn x ks) c'.scopes := by
    intro x ks hx hks
    refine Backed.learn hs (fun hne _ => ⟨t, ?_, hks⟩) fun y hy => ?_
    · rw [Scopes.lookup?_declare hx, if_pos ⟨rfl, hne⟩]
    · rw [Scopes.lookup?_declare hx, if_neg fun h => hy h.1.symm]
  cases hd with
  | letDecl pos x hv =>
    obtain ⟨hv', hx⟩ := infer_letDecl hv h
    refine ⟨hv'.agrees hs, fun o => ?_⟩
    cases o with
    | ok v => exact hdeclare hx (hv'.agrees hs)
    | error f => exact hdeclare hx (agrees_nil t)
  | @funDecl pos f p ps b r hb =>
    obtain ⟨inner, tb, hinner, hb', rfl, hf⟩ := infer_funDecl hb h
    have hcertain : Agrees ((Node.funDecl pos f (p :: ps) b r).certain known)
        ((p :: ps).foldl (fun (t : Typing) _ => some t.function) tb) := by
      rw [Node.certain, sure_curry]
      exact agrees_functions (hb'.agrees (hinner.agree hs)) (p :: ps)
    refine ⟨hcertain, fun o => ?_⟩
    cases o with
    | ok v => exact hdeclare hf hcertain
    | error g => exact hdeclare hf (agrees_nil _)
  | exprStmt pos he =>
    obtain ⟨-, hs'⟩ := infer_exprStmt he h
    refine ⟨agrees_nil t, fun o => ?_⟩
    rw [hs']
    cases o <;> exact Backed.forget hs fun _ _ => rfl

end

end Camlet
