import Camlet.Proofs.Refusals
import Camlet.Proofs.Surroundings
import Mathlib.Data.List.Perm.Basic

/-
  The type of a case distinction. The analysis takes the bodies of the cases in order and keeps one type for those
  so far, with which the type of the next must be compatible. An unknown type is compatible with every other, so
  this relation is not transitive, and it could depend on the order of the cases whether two whose types differ are
  ever compared.

  It does not, since of two compatible types the one that is known is kept (`Ty.merge`). With two types merged, a
  list of types agrees if and only if it did before (`agreeing_merge`), and the first of it that is known is the
  same (`find?_merge`). So by induction on the cases, a case distinction passes if and only if no two bodies have
  known types of different kinds, and its type is the first that is known (`cases_merge`); the first condition does
  not depend on the order of the cases, and under it neither does the kind of that type.
-/

namespace Camlet

open Stateful

/-! ## Merged types -/

namespace Ty

variable {t u : Ty} {ts us : List Ty}

/-- Whether the kind of the values is known. -/
def isKnown (t : Ty) : Bool := t.kind != .unknown

/-- No two known types among some are of different kinds. -/
def Agreeing (ts : List Ty) : Prop :=
  ∀ t ∈ ts, ∀ u ∈ ts, t.isKnown = true → u.isKnown = true → t.kind = u.kind

instance (ts : List Ty) : Decidable (Agreeing ts) :=
  inferInstanceAs (Decidable (∀ t ∈ ts, ∀ u ∈ ts, t.isKnown = true → u.isKnown = true → t.kind = u.kind))

/-- The first known type among some, or an unknown type if none of them is known. -/
def FirstKnown (ts : List Ty) (u : Ty) : Prop :=
  ts.find? isKnown = some u ∨ ts.find? isKnown = none ∧ u.kind = .unknown

/-- What is kept of two types: the first if it is known, and the second if not. -/
def merge (t u : Ty) : Ty := if t.isKnown then t else u

theorem isKnown_eq_false : t.isKnown = false ↔ t.kind = .unknown := by
  simp [isKnown]

theorem merge_known (h : t.isKnown = true) (u : Ty) : t.merge u = t := by
  rw [merge, if_pos h]

theorem merge_unknown (h : t.isKnown = false) (u : Ty) : t.merge u = u := by
  rw [merge, if_neg (Bool.eq_false_iff.mp h)]

/-- Unknown types agree with all others. -/
theorem agreeing_unknown (h : t.isKnown = false) : Agreeing (t :: ts) ↔ Agreeing ts := by
  simp [Agreeing, h]

/-- A known type agrees with others if those that are known are of its kind. -/
theorem agreeing_known (h : t.isKnown = true) :
    Agreeing (t :: ts) ↔ ∀ u ∈ ts, u.isKnown = true → u.kind = t.kind := by
  constructor
  · intro hts u hu hknown
    exact hts u (List.mem_cons_of_mem t hu) t List.mem_cons_self hknown h
  · intro hts u hu v hv hu' hv'
    have hkind : ∀ w ∈ t :: ts, w.isKnown = true → w.kind = t.kind := by
      intro w hw hw'
      rcases List.mem_cons.mp hw with rfl | hw
      · rfl
      · exact hts w hw hw'
    calc u.kind
      _ = t.kind := hkind u hu hu'
      _ = v.kind := (hkind v hv hv').symm

/-- What is kept of two types that agree does so with further ones if both of them do. -/
theorem agreeing_merge (h : Agreeing [t, u]) : Agreeing (t.merge u :: us) ↔ Agreeing (t :: u :: us) := by
  cases ht : t.isKnown with
  | false => rw [merge_unknown ht, agreeing_unknown ht]
  | true =>
    have hu : u.isKnown = true → u.kind = t.kind := by
      simpa using (agreeing_known ht).mp h
    rw [merge_known ht, agreeing_known ht, agreeing_known ht, List.forall_mem_cons]
    exact (and_iff_right hu).symm

/-- Merging two types changes nothing about which is the first that is known. -/
theorem find?_merge : (t.merge u :: us).find? isKnown = (t :: u :: us).find? isKnown := by
  cases ht : t.isKnown with
  | false =>
    have hnot : ¬ t.isKnown = true := Bool.eq_false_iff.mp ht
    rw [merge_unknown ht, List.find?_cons_of_neg hnot]
  | true => rw [merge_known ht, List.find?_cons_of_pos ht, List.find?_cons_of_pos ht]

theorem Agreeing.subset (h : Agreeing us) (hsub : ts ⊆ us) : Agreeing ts :=
  fun t ht u hu => h t (hsub ht) u (hsub hu)

theorem agreeing_singleton (t : Ty) : Agreeing [t] := by
  simp [Agreeing]

theorem firstKnown_singleton (t : Ty) : FirstKnown [t] t := by
  cases ht : t.isKnown with
  | false => exact .inr ⟨by simp [ht], isKnown_eq_false.mp ht⟩
  | true => exact .inl (List.find?_cons_of_pos ht)

/-- Whether types agree does not depend on their order. -/
theorem agreeing_perm (h : ts.Perm us) : Agreeing ts ↔ Agreeing us := by
  simp only [Agreeing, h.mem_iff]

/-- Nor does, if they agree, of which kind the first known one is. -/
theorem FirstKnown.kind_eq (ht : FirstKnown ts t) (hu : FirstKnown us u) (h : ts.Perm us) (hts : Agreeing ts) :
    t.kind = u.kind := by
  have hnone : ts.find? isKnown = none ↔ us.find? isKnown = none := by
    simp only [List.find?_eq_none, h.mem_iff]
  rcases ht with ht | ⟨ht, htkind⟩
  · rcases hu with hu | ⟨hu, -⟩
    · have hmem : u ∈ ts := h.mem_iff.mpr (List.mem_of_find?_eq_some hu)
      exact hts t (List.mem_of_find?_eq_some ht) u hmem (List.find?_some ht) (List.find?_some hu)
    · rw [hnone.mpr hu] at ht
      cases ht
  · rcases hu with hu | ⟨-, hukind⟩
    · rw [hnone.mp ht] at hu
      cases hu
    · rw [htkind, hukind]

end Ty

namespace Typing

variable {t u : Ty}

theorem isKind_unknown (t : Ty) : Typing.isKind (some t) .unknown = !t.isKnown := by
  show (t.kind == .unknown) = !(t.kind != .unknown)
  rw [bne, Bool.not_not]

/-- Two types are compatible if they agree. -/
theorem compatible_iff : Typing.compatible (some t) (some u) = true ↔ Ty.Agreeing [t, u] := by
  have hsame : Typing.same (some t) (some u) = true ↔ t.kind = u.kind := by
    simp [same]
  rw [compatible, isKind_unknown, isKind_unknown, Bool.or_eq_true, Bool.or_eq_true, hsame]
  cases ht : t.isKnown with
  | false => simp [Ty.agreeing_unknown ht, Ty.agreeing_singleton]
  | true =>
    rw [Ty.agreeing_known ht]
    cases hu : u.isKnown with
    | false => simp [hu]
    | true => simpa [hu] using eq_comm

theorem join_some (t u : Ty) : Typing.join (some t) (some u) = some (t.merge u) := by
  show Typing.unify (some t) (some u) = some (t.merge u)
  rw [unify, isKind_unknown, Ty.merge]
  cases t.isKnown <;> rfl

end Typing

/-! ## Cases one after the other -/

namespace Infer

variable {sub : Node → Check Typing} {s : Scopes} {p e : Node} {cs : List (Node × Node)} {t u : Ty}
  {ts us : List Ty}

/-- The body of a case has the type `t` in the scopes `s`, whatever the warnings so far, and leaves the scopes as
they were. -/
def BodyTyped (sub : Node → Check Typing) (s : Scopes) (p : Node × Node) (t : Ty) : Prop :=
  ∀ ws, ∃ ws', caseBody sub p.1 p.2 ⟨s, ws⟩ = .ok (some t) ⟨s, ws'⟩

/-- How the analysis of cases ends whose bodies have the types `ts`: with the first that is known if they agree,
and with the fault that the types of two cases differ if they do not. -/
inductive Merges (ts : List Ty) : EStateM.Result Refusal Context Typing → Prop
  | accepted {u : Ty} {c : Context} : Ty.Agreeing ts → Ty.FirstKnown ts u → Merges ts (.ok (some u) c)
  | refused {pos : Pos} {before found : String} {c : Context} :
    ¬ Ty.Agreeing ts → Merges ts (.error (.fault ⟨pos, .cases before found⟩) c)

/-- What is kept of two types stands for both. -/
theorem Merges.unmerged {r : EStateM.Result Refusal Context Typing} (h : Ty.Agreeing [t, u])
    (hr : Merges (t.merge u :: us) r) : Merges (t :: u :: us) r := by
  cases hr with
  | accepted hagree hfirst =>
    refine .accepted ((Ty.agreeing_merge h).mp hagree) ?_
    rwa [Ty.FirstKnown, Ty.find?_merge] at hfirst
  | refused hdiffer => exact .refused fun hagree => hdiffer ((Ty.agreeing_merge h).mpr hagree)

/-- One step: the type of the next body must be compatible with what is kept, and is merged with it. -/
theorem cases_step (hp : BodyTyped sub s (p, e) u) (before : Typing) (all : Option Node)
    (ws : List (Located Warning)) :
    ∃ all' ws', cases sub before all ((p, e) :: cs) ⟨s, ws⟩ =
      if before.isSome && !before.compatible (some u) then
        .error (.fault ⟨e.pos, .cases before.name (Typing.name (some u))⟩) ⟨s, ws'⟩
      else cases sub (before.join (some u)) all' cs ⟨s, ws'⟩ := by
  obtain ⟨ws₁, hrun⟩ := cases_cons_run before all p e cs s ws
  obtain ⟨ws₂, hbody⟩ := hp ws₁
  refine ⟨all <|> if p.matchesAll then some p else none, ws₂, ?_⟩
  rw [hrun, bind_ok hbody]
  split
  · rfl
  · rfl

/-- Cases are merged with the type `t` that is kept of those in front of them. -/
theorem cases_merge (hcs : List.Forall₂ (BodyTyped sub s) cs ts) (t : Ty) (all : Option Node)
    (ws : List (Located Warning)) : Merges (t :: ts) (cases sub (some t) all cs ⟨s, ws⟩) := by
  -- The kept type stands for all in front, so the induction is on the cases that are left, for any such type.
  induction hcs generalizing t all ws with
  | nil => exact .accepted (Ty.agreeing_singleton t) (Ty.firstKnown_singleton t)
  | @cons p u cs us hp _ ih =>
    obtain ⟨all', ws', hstep⟩ := cases_step hp (some t) all ws
    rw [hstep]
    by_cases hfit : Ty.Agreeing [t, u]
    · have hpass : ((some t : Typing).isSome && !Typing.compatible (some t) (some u)) = false := by
        simp [Typing.compatible_iff.mpr hfit]
      rw [hpass, Typing.join_some]
      exact (ih (t.merge u) all' ws').unmerged hfit
    · have hrefuse : ((some t : Typing).isSome && !Typing.compatible (some t) (some u)) = true := by
        simpa [← Typing.compatible_iff] using hfit
      have hpair : [t, u] ⊆ t :: u :: us := List.cons_subset_cons t (List.cons_subset_cons u (List.nil_subset us))
      rw [hrefuse]
      exact .refused fun h => hfit (h.subset hpair)

/-- With nothing in front of it, the first case is merged with those behind it alone. -/
theorem cases_merge_first (hcs : List.Forall₂ (BodyTyped sub s) cs ts) (hne : cs ≠ [])
    (ws : List (Located Warning)) : Merges ts (cases sub none none cs ⟨s, ws⟩) := by
  cases hcs with
  | nil => exact absurd rfl hne
  | cons hp hcs =>
    obtain ⟨all', ws', hstep⟩ := cases_step hp none none ws
    rw [hstep]
    exact cases_merge hcs _ all' ws'

end Infer

/-! ## Case distinctions -/

/-- The type that a step comes to in a context, if it goes well. -/
def Check.type? (x : Check Typing) (c : Context) : Option Typing :=
  match x c with
  | .ok t _ => some t
  | .error .. => none

theorem Check.type?_eq_some {x : Check Typing} {c : Context} {t : Typing} :
    x.type? c = some t ↔ ∃ c', x c = .ok t c' := by
  rw [Check.type?]
  cases x c with
  | ok u c' => simp
  | error r c' => simp

/-- In a context, the bodies of cases have these types, each in a frame of its own. -/
def BodiesTyped (depth : Nat) (c : Context) : List (Node × Node) → List Ty → Prop :=
  List.Forall₂ fun p t => (Infer.caseBody (infer depth) p.1 p.2).type? c = some (some t)

section

variable {depth : Nat} {c : Context} {pos : Pos} {n : Node} {cs cs' : List (Node × Node)} {ts ts' : List Ty}

/-- What a body comes to in a context does not depend on the warnings of that. -/
theorem bodyTyped_of_type? {p : Node × Node} {t : Ty} (hp : IsPattern p.1) (he : IsExpression p.2)
    (h : (Infer.caseBody (infer depth) p.1 p.2).type? c = some (some t)) :
    Infer.BodyTyped (infer depth) c.scopes p t := by
  intro ws
  obtain ⟨c', hrun⟩ := Check.type?_eq_some.mp h
  have hsame : c.scopes.Replaces c.scopes := ⟨fun _ _ h => h, fun _ h => h⟩
  have hmirrors : Mirrors (At c.scopes c.scopes) (Infer.caseBody (infer depth) p.1 p.2)
      (Infer.caseBody (infer depth) (p.1.moved id) (p.2.moved id)) Eq (At c.scopes c.scopes) :=
    Infer.mirrors_caseBody hsame hp (infer_placeFree depth he)
  rw [Node.moved_id, Node.moved_id] at hmirrors
  obtain ⟨_, ⟨s, ws'⟩, hrun', rfl, -, rfl⟩ := hmirrors c ⟨c.scopes, ws⟩ ⟨rfl, rfl⟩ _ _ hrun
  exact ⟨ws', hrun'⟩

/-- Bodies that pass have types. -/
theorem exists_bodiesTyped (hc : c.scopes.Typed) (hp : ∀ p ∈ cs, IsPattern p.1) (he : ∀ p ∈ cs, IsExpression p.2)
    (hcs : ∀ p ∈ cs, ((Infer.caseBody (infer depth) p.1 p.2).type? c).isSome = true) :
    ∃ ts, BodiesTyped depth c cs ts ∧ List.Forall₂ (Infer.BodyTyped (infer depth) c.scopes) cs ts := by
  induction cs with
  | nil => exact ⟨[], .nil, .nil⟩
  | cons p cs ih =>
    obtain ⟨hp, hps⟩ := List.forall_mem_cons.mp hp
    obtain ⟨he, hes⟩ := List.forall_mem_cons.mp he
    obtain ⟨hbody, hbodies⟩ := List.forall_mem_cons.mp hcs
    obtain ⟨ts, hts, hts'⟩ := ih hps hes hbodies
    obtain ⟨t, ht⟩ := Option.isSome_iff_exists.mp hbody
    have htype : t.isSome = true := by
      obtain ⟨c', hrun⟩ := Check.type?_eq_some.mp ht
      have htyped := Infer.types_caseBody hp (infer_types depth he) c hc
      rw [hrun] at htyped
      exact htyped.2
    obtain ⟨t, rfl⟩ := Option.isSome_iff_exists.mp htype
    exact ⟨t :: ts, .cons ht hts, .cons (bodyTyped_of_type? hp he ht) hts'⟩

/-- If what is distinguished passes, the types of the bodies are merged. -/
theorem matching_merge (hn : IsExpression n) (hpass : ((infer depth n).type? c).isSome = true) (hne : cs ≠ [])
    (hts : List.Forall₂ (Infer.BodyTyped (infer depth) c.scopes) cs ts) :
    Infer.Merges ts (infer (depth + 1) (.matching pos n cs) c) := by
  obtain ⟨t, ht⟩ := Option.isSome_iff_exists.mp hpass
  obtain ⟨⟨s, ws⟩, hrun⟩ := Check.type?_eq_some.mp ht
  obtain ⟨-, rfl⟩ : _ ∧ s = c.scopes := infer_sound depth hn c t _ hrun
  show Infer.Merges ts (Infer.matching (infer depth) n cs c)
  rw [Infer.matching, bind_ok hrun]
  exact Infer.cases_merge_first hts hne ws

end

namespace Infer.Merges

variable {ts ts' : List Ty} {x y : Check Typing} {c : Context}

theorem isSome_type? (h : Merges ts (x c)) : (x.type? c).isSome = true ↔ Ty.Agreeing ts := by
  rw [Check.type?]
  generalize x c = r at h
  cases h with
  | accepted hagree _ => simp [hagree]
  | refused hdiffer => simp [hdiffer]

theorem of_type? (h : Merges ts (x c)) {t : Typing} (ht : x.type? c = some t) :
    ∃ u, t = some u ∧ Ty.FirstKnown ts u := by
  obtain ⟨c', hrun⟩ := Check.type?_eq_some.mp ht
  rw [hrun] at h
  cases h with
  | accepted _ hfirst => exact ⟨_, rfl, hfirst⟩

/-- Types that differ are reported as such. -/
theorem refusal (h : Merges ts (x c)) (hdiffer : ¬ Ty.Agreeing ts) :
    ∃ place before found c', x c = .error (.fault ⟨place, .cases before found⟩) c' := by
  generalize x c = r at h
  cases h with
  | accepted hagree _ => exact absurd hagree hdiffer
  | refused _ => exact ⟨_, _, _, _, rfl⟩

/-- The order of the types decides neither whether they are accepted nor of which kind the result is. -/
theorem kind_eq (hx : Merges ts (x c)) (hy : Merges ts' (y c)) (h : ts.Perm ts') :
    (y.type? c).map (Option.map Ty.kind) = (x.type? c).map (Option.map Ty.kind) := by
  rw [Check.type?, Check.type?]
  generalize x c = r at hx
  generalize y c = r' at hy
  cases hx with
  | accepted hagree hfirst =>
    cases hy with
    | accepted _ hfirst' => simp [hfirst.kind_eq hfirst' h hagree]
    | refused hdiffer => exact absurd ((Ty.agreeing_perm h).mp hagree) hdiffer
  | refused hdiffer =>
    cases hy with
    | accepted hagree _ => exact absurd ((Ty.agreeing_perm h).mpr hagree) hdiffer
    | refused _ => rfl

end Infer.Merges

/-- Whatever case distinction was read, and whatever the context in which every name has a type: let what is
distinguished pass the analysis, and the body of each case, in a frame of its own in which the name of its pattern
is declared. Then the case distinction passes if and only if no two bodies have known types of different kinds. Its
type is the first of theirs that is known, or unknown if there is none; if it does not pass, it is refused for the
types of two cases. In another order the cases pass exactly if they do in this one, with a type of the same kind. -/
theorem matching_agreeing {depth : Nat} {c : Context} {pos : Pos} {n : Node} {cs : List (Node × Node)}
    (he : IsExpression (.matching pos n cs)) (hc : c.scopes.Typed) (hn : ((infer depth n).type? c).isSome = true)
    (hcs : ∀ p ∈ cs, ((Infer.caseBody (infer depth) p.1 p.2).type? c).isSome = true) :
    ∃ ts, BodiesTyped depth c cs ts ∧
      (((infer (depth + 1) (.matching pos n cs)).type? c).isSome = true ↔ Ty.Agreeing ts) ∧
      (∀ t, (infer (depth + 1) (.matching pos n cs)).type? c = some t → ∃ u, t = some u ∧ Ty.FirstKnown ts u) ∧
      (¬ Ty.Agreeing ts → ∃ place before found c', infer (depth + 1) (.matching pos n cs) c =
        .error (.fault ⟨place, .cases before found⟩) c') ∧
      ∀ cs', cs.Perm cs' → ((infer (depth + 1) (.matching pos n cs')).type? c).map (Option.map Ty.kind) =
        ((infer (depth + 1) (.matching pos n cs)).type? c).map (Option.map Ty.kind) := by
  cases he with
  | matching _ hexpr hne hp he =>
    obtain ⟨ts, hts, hbodies⟩ := exists_bodiesTyped hc hp he hcs
    have hmerge : Infer.Merges ts (infer (depth + 1) (.matching pos n cs) c) :=
      matching_merge hexpr hn hne hbodies
    refine ⟨ts, hts, hmerge.isSome_type?, fun t ht => hmerge.of_type? ht, hmerge.refusal, fun cs' hperm => ?_⟩
    obtain ⟨ts', hbodies', hperm'⟩ := List.perm_comp_forall₂ hperm.symm hbodies
    have hne' : cs' ≠ [] := fun hnil => hne (hnil ▸ hperm).eq_nil
    exact hmerge.kind_eq (matching_merge hexpr hn hne' hbodies') hperm'.symm

/-- A context in which nothing is known of `x`. -/
def unknownContext : Context := ⟨.ofSeed [("x", some .unknown)], []⟩

/-- A case of unknown type between two whose types differ. -/
def unknownBetween : List (Node × Node) :=
  [(.bind ⟨1, 14⟩ "y", .intLit ⟨1, 19⟩ 2), (.bind ⟨1, 23⟩ "y", .ident ⟨1, 28⟩ "y"),
    (.wildcard ⟨1, 32⟩, .stringLit ⟨1, 37⟩ "a")]

/-- The unknown type is compatible with the two others, which are not with one another: the cases are refused in
any order. -/
theorem matching_agreeing_between :
    BodiesTyped 1 unknownContext unknownBetween [.int, .unknown, .string] ∧
      ∀ cs', unknownBetween.Perm cs' →
        (infer 2 (.matching ⟨1, 1⟩ (.ident ⟨1, 7⟩ "x") cs')).type? unknownContext = none := by
  have hpattern : ∀ p ∈ unknownBetween, IsPattern p.1 := by
    simp [unknownBetween, IsPattern.bind, IsPattern.wildcard]
  have hexpr : ∀ p ∈ unknownBetween, IsExpression p.2 := by
    simp [unknownBetween, IsExpression.intLit, IsExpression.ident, IsExpression.stringLit]
  have hmatching : IsExpression (.matching ⟨1, 1⟩ (.ident ⟨1, 7⟩ "x") unknownBetween) :=
    .matching _ (.ident _ "x") (List.cons_ne_nil _ _) hpattern hexpr
  have htyped : unknownContext.scopes.Typed := Scopes.typed_ofSeed (Frame.typed_nil.set "x" rfl)
  obtain ⟨ts, hts, haccepted, -, -, horder⟩ :=
    @matching_agreeing 1 unknownContext _ _ _ hmatching htyped (by decide) (by decide)
  have htypes : BodiesTyped 1 unknownContext unknownBetween [.int, .unknown, .string] :=
    .cons rfl (.cons rfl (.cons rfl .nil))
  obtain rfl : ts = [.int, .unknown, .string] :=
    List.right_unique_forall₂' (fun _ _ _ h h' => Option.some.inj (Option.some.inj (h.symm.trans h'))) hts htypes
  have hdiffer : ¬ Ty.Agreeing [.int, .unknown, .string] := by decide
  have hrefused : (infer 2 (.matching ⟨1, 1⟩ (.ident ⟨1, 7⟩ "x") unknownBetween)).type? unknownContext = none :=
    Option.not_isSome_iff_eq_none.mp (mt haccepted.mp hdiffer)
  refine ⟨htypes, fun cs' hperm => ?_⟩
  have hkind := horder cs' hperm
  rw [hrefused] at hkind
  exact Option.map_eq_none_iff.mp hkind

end Camlet
