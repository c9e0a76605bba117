import Camlet.Proofs.Inference

/-
  Free names. An occurrence of a name in an expression is free if nothing inside the expression binds the
  name there. What passes the analysis has free occurrences of declared names only.
-/

namespace Camlet

/-- Occurrences of names but those of one that is bound around them. -/
def unbound (x : String) (os : List (Located String)) : List (Located String) :=
  os.filter fun o => o.val ≠ x

theorem mem_unbound {x : String} {os : List (Located String)} {o : Located String} :
    o ∈ unbound x os ↔ o ∈ os ∧ o.val ≠ x := by
  simp [unbound]

namespace Node

/-- The name that a pattern binds is bound around the body of its case. -/
def unboundCase (p : Node) (os : List (Located String)) : List (Located String) :=
  match p with
  | bind _ x => unbound x os
  | _ => os

mutual

/-- The free occurrences of names in a tree. -/
def free : Node → List (Located String)
  | letDecl _ _ v => v.free
  | funDecl _ f ps b r =>
    let os := ps.foldr unbound b.free
    if r then unbound f os else os
  | exprStmt _ e => e.free
  | letIn _ x v b r => (if r then unbound x v.free else v.free) ++ unbound x b.free
  | cond _ c t e => c.free ++ t.free ++ e.free
  | matching _ s cs => s.free ++ casesFree cs
  | lambda _ p b => unbound p b.free
  | apply _ f a => f.free ++ a.free
  | binary _ _ l r => l.free ++ r.free
  | unary _ _ e => e.free
  | ident pos x => [⟨pos, x⟩]
  | _ => []

/-- The free occurrences of names in cases. -/
def casesFree : List (Node × Node) → List (Located String)
  | [] => []
  | (p, e) :: cs => p.unboundCase e.free ++ casesFree cs

end

/-- Names but the one that is bound around them. What binds `_` does not declare it, so that one is left. -/
def hidden (x : String) (ys : List String) : List String := if x = "_" then ys else ys.filter (· ≠ x)

/-- The name that a pattern binds is bound around the body of its case. -/
def hiddenCase (p : Node) (ys : List String) : List String :=
  match p with
  | bind _ x => hidden x ys
  | _ => ys

mutual

/-- The names that a tree takes from its surroundings: those that occur free, and `_` wherever it occurs. -/
def wanted : Node → List String
  | letDecl _ _ v => v.wanted
  | funDecl _ f ps b r =>
    let ys := ps.foldr hidden b.wanted
    if r then hidden f ys else ys
  | exprStmt _ e => e.wanted
  | letIn _ x v b r => (if r then hidden x v.wanted else v.wanted) ++ hidden x b.wanted
  | cond _ c t e => c.wanted ++ t.wanted ++ e.wanted
  | matching _ s cs => s.wanted ++ casesWanted cs
  | lambda _ p b => hidden p b.wanted
  | apply _ f a => f.wanted ++ a.wanted
  | binary _ _ l r => l.wanted ++ r.wanted
  | unary _ _ e => e.wanted
  | ident _ x => [x]
  | _ => []

/-- The names that cases take from their surroundings. -/
def casesWanted : List (Node × Node) → List String
  | [] => []
  | (p, e) :: cs => p.hiddenCase e.wanted ++ casesWanted cs

end

theorem mem_hidden {x y : String} {ys : List String} : y ∈ hidden x ys ↔ y ∈ ys ∧ (y = x → x = "_") := by
  unfold hidden
  split
  next hx => simp [hx]
  next hx => simp [hx]

theorem wanted_curry (pos : Pos) (ps : List String) (b : Node) :
    (curry pos ps b).wanted = ps.foldr hidden b.wanted := by
  induction ps with
  | nil => rfl
  | cons p ps ih => exact congrArg (hidden p) ih

/-- The name that a declaration declares. -/
def declared? : Node → Option String
  | letDecl _ x _ => some x
  | funDecl _ f _ _ _ => some f
  | _ => none

theorem free_curry (pos : Pos) (ps : List String) (b : Node) :
    (curry pos ps b).free = ps.foldr unbound b.free := by
  induction ps with
  | nil => rfl
  | cons p ps ih => exact congrArg (unbound p) ih

theorem mem_foldr_unbound {ps : List String} {os : List (Located String)} {o : Located String} :
    o ∈ ps.foldr unbound os ↔ o ∈ os ∧ o.val ∉ ps := by
  induction ps with
  | nil => simp
  | cons p ps ih =>
    rw [List.foldr_cons, mem_unbound, ih]
    simp [and_assoc, and_comm]

theorem mem_casesFree {cs : List (Node × Node)} {o : Located String} :
    o ∈ casesFree cs ↔ ∃ c ∈ cs, o ∈ c.1.unboundCase c.2.free := by
  induction cs with
  | nil => simp [casesFree]
  | cons c cs ih =>
    obtain ⟨p, e⟩ := c
    simp [casesFree, ih]

end Node

/-! ## Free names are declared -/

/-- Whether a name is declared. -/
def Scopes.Declares (s : Scopes) (x : String) : Prop := (s.lookup? x).isSome = true

theorem Scopes.declares_cons {f : Frame} {s : Scopes} {x : String} :
    Scopes.Declares (f :: s) x ↔ f.has x = true ∨ s.Declares x := by
  simp only [Scopes.Declares, Scopes.lookup?, Bindings.has]
  cases f.get? x <;> simp

theorem Frame.has_own {x y : String} {t : Typing} (h : (Frame.own x t).has y = true) : y = x := by
  by_cases hx : x = "_"
  · simp [Frame.own, hx, Bindings.has] at h
  · simp only [Frame.own, hx, if_false, Bindings.has, Bindings.get?] at h
    by_cases hxy : x = y
    · exact hxy.symm
    · simp [hxy] at h

theorem declares_own {s : Scopes} {x y : String} {t : Typing}
    (h : Scopes.Declares (Frame.own x t :: s) y) (hne : y ≠ x) : s.Declares y :=
  (Scopes.declares_cons.mp h).resolve_left fun hown => hne (Frame.has_own hown)

theorem declares_ofPattern {s : Scopes} {p : Node} {os : List (Located String)}
    (h : ∀ o ∈ os, Scopes.Declares (Frame.ofPattern p :: s) o.val) :
    ∀ o ∈ p.unboundCase os, s.Declares o.val := by
  intro o ho
  cases p with
  | bind pos x =>
    obtain ⟨ho, hne⟩ := mem_unbound.mp ho
    exact declares_own (h o ho) hne
  | _ => exact (Scopes.declares_cons.mp (h o ho)).resolve_left nofun

theorem exists_mem_zip {α β : Type} {as : List α} {bs : List β} (h : bs.length = as.length) {a : α}
    (ha : a ∈ as) : ∃ b, (a, b) ∈ as.zip bs := by
  obtain ⟨i, hi, rfl⟩ := List.mem_iff_getElem.mp ha
  exact ⟨bs[i], List.mem_iff_getElem.mpr ⟨i, by simp [h, hi], by simp⟩⟩

/-- Every free name of an expression of which a type is inferred is declared. -/
theorem Infers.declares {s : Scopes} {e : Node} {t : Typing} (h : Infers s e t) :
    ∀ o ∈ e.free, s.Declares o.val := by
  induction h with
  | letIn _ _ hv hb =>
    intro o ho
    rw [Node.free, List.mem_append] at ho
    rcases ho with ho | ho
    · exact (Scopes.declares_cons.mp (hv o ho)).resolve_left nofun
    · obtain ⟨ho, hne⟩ := mem_unbound.mp ho
      exact declares_own (hb o ho) hne
  | letRec _ _ hv hb =>
    intro o ho
    rw [Node.free, List.mem_append] at ho
    rcases ho with ho | ho
    · obtain ⟨ho, hne⟩ := mem_unbound.mp ho
      exact declares_own (hv o ho) hne
    · obtain ⟨ho, hne⟩ := mem_unbound.mp ho
      refine (Scopes.declares_cons.mp (hb o ho)).resolve_left fun hhas =>
        hne (Frame.has_own (t := some .anyFunction) ?_)
      simpa [Bindings.has, Bindings.get?, Ne.symm hne] using hhas
  | cond _ _ _ _ hc ht he =>
    intro o ho
    simp only [Node.free, List.mem_append] at ho
    rcases ho with (ho | ho) | ho
    · exact hc o ho
    · exact ht o ho
    · exact he o ho
  | matching _ hlen _ hs hcs =>
    intro o ho
    rw [Node.free, List.mem_append, Node.mem_casesFree] at ho
    rcases ho with ho | ⟨c, hc, ho⟩
    · exact hs o ho
    · obtain ⟨t, hct⟩ := exists_mem_zip hlen hc
      exact declares_ofPattern (hcs _ hct) o ho
  | lambda _ hb =>
    intro o ho
    obtain ⟨ho, hne⟩ := mem_unbound.mp ho
    exact declares_own (hb o ho) hne
  | apply _ _ _ hf ha | applyUnknown _ _ _ hf ha =>
    intro o ho
    rcases List.mem_append.mp ho with ho | ho
    · exact hf o ho
    · exact ha o ho
  | logical _ _ _ hl hr | floating _ _ _ hl hr | comparison _ _ _ hl hr | arithmetic _ _ _ hl hr =>
    intro o ho
    rcases List.mem_append.mp ho with ho | ho
    · exact hl o ho
    · exact hr o ho
  | floatSign _ he | sign _ _ _ he => exact he
  | intLit | floatLit | stringLit | charLit => exact fun o ho => absurd ho List.not_mem_nil
  | ident hx =>
    intro o ho
    obtain rfl := List.mem_singleton.mp ho
    exact Option.isSome_iff_exists.mpr ⟨_, hx⟩

/-! ## Declarations -/

/-- The name under which a result is shown is declared, unless it is the `-` of expressions. -/
theorem IsDeclaration.declared?_iff {d : Node} {x y : String} (hd : IsDeclaration d)
    (hname : d.name? = some y) (hdash : x ≠ "-") : d.declared? = some x ↔ y = x := by
  cases hd with
  | letDecl | funDecl =>
    cases hname
    exact Option.some_inj
  | exprStmt =>
    cases hname
    exact ⟨nofun, fun h => absurd h.symm hdash⟩

theorem BodyScopes.declares {ps : List String} {f : String} {r : Bool} {s inner : Scopes}
    (h : BodyScopes ps f r s inner) {y : String} (hy : inner.Declares y) (hps : y ∉ ps)
    (hf : r = true → y ≠ f) : s.Declares y := by
  obtain ⟨g, rfl, hget⟩ := h
  rcases Scopes.declares_cons.mp hy with hy | hy
  · obtain ⟨t, ht⟩ := Option.isSome_iff_exists.mp hy
    exact absurd (hget y t ht) hps
  · refine (Scopes.declares_cons.mp hy).resolve_left fun hown => ?_
    cases r with
    | false => cases hown
    | true =>
      have hne := hf rfl
      simp [Bindings.has, Bindings.get?, Ne.symm hne] at hown

/-- Every free name of a declaration that passes the analysis is declared, and only its own name is
declared in addition. -/
theorem infer_declares {depth : Nat} {c c' : Context} {d : Node} {t : Typing} (hd : IsDeclaration d)
    (h : infer depth d c = .ok t c') :
    (∀ o ∈ d.free, c.scopes.Declares o.val) ∧
      ∀ y, c'.scopes.Declares y → c.scopes.Declares y ∨ d.declared? = some y := by
  have hdeclare : ∀ {x}, c.scopes.declare x t = .ok c'.scopes →
      ∀ y, c'.scopes.Declares y → c.scopes.Declares y ∨ some x = some y := by
    intro x hx y hy
    rw [Scopes.Declares, Scopes.lookup?_declare hx] at hy
    split at hy
    next heq => exact .inr (congrArg some heq.1)
    next => exact .inl hy
  cases hd with
  | letDecl pos x hv =>
    obtain ⟨hv', hs⟩ := infer_letDecl hv h
    exact ⟨hv'.declares, hdeclare hs⟩
  | @funDecl pos f p ps b r hb =>
    obtain ⟨inner, tb, hinner, hb', -, hs⟩ := infer_funDecl hb h
    refine ⟨fun o ho => ?_, hdeclare hs⟩
    have hmem : o ∈ (p :: ps).foldr unbound b.free ∧ (r = true → o.val ≠ f) := by
      cases r with
      | false => exact ⟨ho, nofun⟩
      | true => exact ⟨(mem_unbound.mp ho).1, fun _ => (mem_unbound.mp ho).2⟩
    obtain ⟨hmem, hf⟩ := hmem
    obtain ⟨hmem, hps⟩ := Node.mem_foldr_unbound.mp hmem
    exact hinner.declares (hb'.declares o hmem) hps hf
  | exprStmt pos he =>
    obtain ⟨he', hs⟩ := infer_exprStmt he h
    exact ⟨he'.declares, fun y hy => .inl (hs ▸ hy)⟩

end Camlet
