import Camlet.Proofs.Failures

/-
  Recovery from faults. The tokens of a text are read in attempts, one for each declaration. Each attempt gets
  at least one token further, whether it fails or not; its fault is about one of the tokens from its first up to
  the one where it stopped; and the faults come in the order of the text, so that no token is blamed twice.

  What one attempt does is the step (`resume_bounds`, `exists_culprit`), and the whole run follows by induction on
  the attempts. That the order is strict is not a matter of single steps: reading may go on at the very token that
  was blamed, if an expression may start with its keyword. The next attempt takes this keyword, however, before
  it can fail, unless reading gives up for the nesting.
-/

namespace Camlet

open Stateful

/-! ## Attempts -/

/-- An attempt to read a declaration: the tokens where it starts, where it stops and where reading goes on, by
their indices, and what comes of it. -/
structure Attempt where
  start : Nat
  stop : Nat
  next : Nat
  outcome : Except (Located SyntaxFault) Node

/-- The declaration that was read, if the attempt did not fail. -/
def Attempt.declared? (a : Attempt) : Option Node :=
  match a.outcome with
  | .ok d => some d
  | .error _ => none

/-- The fault of an attempt that failed. -/
def Attempt.fault? (a : Attempt) : Option (Located SyntaxFault) :=
  match a.outcome with
  | .ok _ => none
  | .error f => some f

/-- The attempts by which the tokens from an index on are read, where the end of the tokens is at `stop`.
Separators between them are passed over. -/
inductive Attempts (budget : Nat) (stop : Pos) (ts : List Token) : Nat → List Attempt → Prop
  | done : Attempts budget stop ts ts.length []
  | separator {i : Nat} {t : Token} {as : List Attempt} (ht : ts[i]? = some t) (hsep : isSeparator t = true)
    (has : Attempts budget stop ts (i + 1) as) : Attempts budget stop ts i as
  | declared {i j : Nat} {t : Token} {d : Node} {as : List Attempt} (ht : ts[i]? = some t)
    (hsep : isSeparator t = false)
    (hd : Grammar.declaration (Nonterminal.parse budget) (ts.drop i) = .ok d (ts.drop j)) (hj : j ≤ ts.length)
    (has : Attempts budget stop ts j as) : Attempts budget stop ts i (⟨i, j, j, .ok d⟩ :: as)
  | failed {i j k : Nat} {t : Token} {e : Stop} {as : List Attempt} (ht : ts[i]? = some t)
    (hsep : isSeparator t = false)
    (hd : Grammar.declaration (Nonterminal.parse budget) (ts.drop i) = .error e (ts.drop j)) (hj : j ≤ ts.length)
    (hk : Parsed.resume (ts.drop i) (ts.drop j) = ts.drop k) (hk' : k ≤ ts.length)
    (has : Attempts budget stop ts k as) :
    Attempts budget stop ts i (⟨i, j, k, .error (Parsed.locate t.pos stop e)⟩ :: as)

section

variable {budget : Nat} {stop : Pos} {ts : List Token}

theorem drop_of_getElem? {i : Nat} {t : Token} (ht : ts[i]? = some t) : ts.drop i = t :: ts.drop (i + 1) := by
  obtain ⟨hi, rfl⟩ := List.getElem?_eq_some_iff.mp ht
  exact List.drop_eq_getElem_cons hi

theorem getElem?_of_drop {i : Nat} {t : Token} {us : List Token} (h : ts.drop i = t :: us) : ts[i]? = some t := by
  rw [← Nat.add_zero i, ← List.getElem?_drop, h]
  rfl

/-- An end of the tokens is what is left from an index on. -/
theorem exists_drop_of_suffix {us : List Token} (h : us <:+ ts) : ∃ i ≤ ts.length, us = ts.drop i :=
  ⟨ts.length - us.length, Nat.sub_le .., List.suffix_iff_eq_drop.mp h⟩

theorem le_of_drop_suffix {i j : Nat} (h : ts.drop j <:+ ts.drop i) (hj : j ≤ ts.length) (hi : i ≤ ts.length) :
    i ≤ j := by
  have hlength := h.length_le
  simp only [List.length_drop] at hlength
  omega

/-- What is read of the tokens from an index on is what comes of attempts. -/
theorem exists_attempts (budget : Nat) (stop : Pos) {i : Nat} (hi : i ≤ ts.length) :
    ∃ as, Attempts budget stop ts i as ∧
      Parsed.read budget stop (ts.drop i) = (as.filterMap Attempt.declared?, as.filterMap Attempt.fault?) := by
  -- On the number of tokens that are left.
  induction hn : ts.length - i using Nat.strongRecOn generalizing i with
  | _ n ih =>
    subst hn
    cases ht : ts[i]? with
    | none =>
      obtain rfl : i = ts.length := Nat.le_antisymm hi (List.getElem?_eq_none_iff.mp ht)
      exact ⟨[], .done, by rw [List.drop_length]; rfl⟩
    | some t =>
      have hlt : i < ts.length := (List.getElem?_eq_some_iff.mp ht).1
      have hdrop := drop_of_getElem? ht
      cases hsep : isSeparator t with
      | true =>
        obtain ⟨as, has, hread⟩ := ih _ (by omega) (Nat.succ_le_of_lt hlt) rfl
        refine ⟨as, .separator ht hsep has, ?_⟩
        rw [hdrop, Parsed.read_separator hsep, hread]
      | false =>
        cases hd : Grammar.declaration (Nonterminal.parse budget) (ts.drop i) with
        | ok d rest =>
          have hlength := declaration_length_lt hd
          have hsuffix := (declaration_suffix budget (ts.drop i)).1
          rw [hd] at hsuffix
          obtain ⟨j, hj, rfl⟩ := exists_drop_of_suffix (List.IsSuffix.trans hsuffix (List.drop_suffix i ts))
          simp only [List.length_drop] at hlength
          obtain ⟨as, has, hread⟩ := ih _ (by omega) hj rfl
          refine ⟨_, .declared ht hsep hd hj has, ?_⟩
          rw [hdrop] at hd ⊢
          rw [Parsed.read_ok hsep hd, hread]
          rfl
        | error e left =>
          have hsuffix := declaration_error_suffix hd
          obtain ⟨j, hj, rfl⟩ := exists_drop_of_suffix (hsuffix.trans (List.drop_suffix i ts))
          have hresume : Parsed.resume (ts.drop i) (ts.drop j) <:+ ts.drop (i + 1) := by
            rw [hdrop] at hsuffix ⊢
            exact Parsed.resume_suffix hsuffix
          obtain ⟨k, hk, hnext⟩ := exists_drop_of_suffix (hresume.trans (List.drop_suffix (i + 1) ts))
          have hlater := le_of_drop_suffix (hnext ▸ hresume) hk (Nat.succ_le_of_lt hlt)
          obtain ⟨as, has, hread⟩ := ih _ (by omega) hk rfl
          refine ⟨_, .failed ht hsep hd hj hnext hk has, ?_⟩
          rw [hdrop] at hd hnext ⊢
          rw [Parsed.read_error hsep hd, hnext, hread]
          rfl

/-! ## What an attempt does -/

/-- Reading may go on at the token with the index. -/
def RestartsAt (ts : List Token) (i : Nat) : Prop := ∃ t, ts[i]? = some t ∧ Parsed.isRestart t = true

/-- Where an attempt stopped behind its first token, reading goes on from there. -/
theorem resume_eq_skip {i j : Nat} (hi : i < ts.length) (hij : i < j) :
    Parsed.resume (ts.drop i) (ts.drop j) = Parsed.skip (ts.drop j) := by
  have hlength : (ts.drop j).length ≠ (ts.drop i).length := by
    simp only [List.length_drop]
    omega
  rw [Parsed.resume, if_neg hlength]

/-- Reading goes on further on than where it started, and not in front of where it stopped. -/
theorem resume_bounds {i j k : Nat} {t : Token} (ht : ts[i]? = some t) (hij : i ≤ j) (hj : j ≤ ts.length)
    (hk : Parsed.resume (ts.drop i) (ts.drop j) = ts.drop k) (hk' : k ≤ ts.length) : i < k ∧ j ≤ k := by
  have hlt : i < ts.length := (List.getElem?_eq_some_iff.mp ht).1
  have hlater : i + 1 ≤ k := by
    have hleft := List.drop_suffix_drop_left ts hij
    rw [drop_of_getElem? ht] at hk hleft
    exact le_of_drop_suffix (hk ▸ Parsed.resume_suffix hleft) hk' hlt
  refine ⟨hlater, ?_⟩
  rcases Nat.eq_or_lt_of_le hij with rfl | hij
  · exact Nat.le_of_succ_le hlater
  · rw [resume_eq_skip hlt hij] at hk
    exact le_of_drop_suffix (hk ▸ Parsed.skip_suffix (ts.drop j)) hk' hj

/-- Reading goes on behind the token where it stopped, if that is not the first, or at that token, if an
expression may start there. -/
theorem resume_at {i j k : Nat} {t : Token} (ht : ts[j]? = some t) (hij : i < j)
    (hk : Parsed.resume (ts.drop i) (ts.drop j) = ts.drop k) (hk' : k ≤ ts.length) :
    j < k ∨ j = k ∧ RestartsAt ts j := by
  have hlt : j < ts.length := (List.getElem?_eq_some_iff.mp ht).1
  have hdrop := drop_of_getElem? ht
  rw [resume_eq_skip (hij.trans hlt) hij, hdrop, Parsed.skip] at hk
  split at hk
  next hrestart =>
    rw [← hdrop] at hk
    have hle := le_of_drop_suffix (hk ▸ List.suffix_rfl) hk' hlt.le
    have hge := le_of_drop_suffix (hk ▸ List.suffix_rfl) hlt.le hk'
    exact .inr ⟨Nat.le_antisymm hle hge, t, ht, hrestart⟩
  next =>
    have hbehind : ts.drop k <:+ ts.drop (j + 1) := by
      rw [← hk]
      split
      · exact List.suffix_rfl
      · exact Parsed.skip_suffix _
    exact .inl (le_of_drop_suffix hbehind hk' hlt)

/-- Behind a keyword that starts an expression the form goes on that it starts. -/
theorem expression_restart {sub : Nonterminal → Parser Node} (h : ∀ nt, Orderly [] (sub nt)) {t : Token}
    (ht : Parsed.isRestart t = true) :
    ∃ x : Parser Node, Orderly [] x ∧ ∀ us, Grammar.expression sub (t :: us) = x us := by
  simp only [Parsed.isRestart, Bool.and_eq_true, beq_iff_eq, List.contains_iff_mem, List.mem_cons,
    List.not_mem_nil, or_false] at ht
  obtain ⟨hkind, hlet | hif | hfun | hmatch⟩ := ht
  · exact ⟨_, orderly_letIn h t.pos, fun us => expression_form.1 (Token.isA_iff.mpr ⟨hkind, hlet⟩)⟩
  · exact ⟨_, orderly_cond h t.pos, fun us => expression_form.2.1 (Token.isA_iff.mpr ⟨hkind, hif⟩)⟩
  · exact ⟨_, orderly_lambda h t.pos, fun us => expression_form.2.2.1 (Token.isA_iff.mpr ⟨hkind, hfun⟩)⟩
  · exact ⟨_, orderly_matching h t.pos, fun us => expression_form.2.2.2 (Token.isA_iff.mpr ⟨hkind, hmatch⟩)⟩

theorem statement_restart {t : Token} {us left : List Token} {e : Stop} (ht : Parsed.isRestart t = true)
    (hs : Grammar.statement (Nonterminal.parse budget) (t :: us) = .error e left) : e = .tooDeep ∨ left <:+ us := by
  cases hlet : t.isA .keyword "let" with
  | true =>
    have horderly : Orderly [] (Grammar.letStatement (Nonterminal.parse budget) t.pos) :=
      orderly_letStatement budget t.pos
    have hsuffix := horderly.suffix us
    rw [statement_let hlet] at hs
    rw [hs] at hsuffix
    exact .inr hsuffix
  | false =>
    rw [statement_expression hlet] at hs
    cases budget with
    | zero =>
      cases hs
      exact .inl rfl
    | succ n =>
      obtain ⟨x, hx, hform⟩ := expression_restart (orderly_parse n) ht
      have hsuffix := hx.suffix us
      rw [bind_eq_error, Nonterminal.parse, hform] at hs
      rcases hs with hs | ⟨d, s, -, hd⟩
      · rw [hs] at hsuffix
        exact .inr hsuffix
      · cases hd

/-- A keyword that starts an expression is taken, unless reading gives up for the nesting. -/
theorem declaration_restart {t : Token} {us left : List Token} {e : Stop} (ht : Parsed.isRestart t = true)
    (hd : Grammar.declaration (Nonterminal.parse budget) (t :: us) = .error e left) :
    e = .tooDeep ∨ left <:+ us := by
  rw [declaration_eq, bind_eq_error] at hd
  rcases hd with hs | ⟨d, s, hs, hd⟩
  · exact statement_restart ht hs
  · have htaken : s <:+ us := by
      have hsuffix := (orderly_statement budget).suffix (t :: us)
      rw [hs] at hsuffix
      refine (List.suffix_cons_iff.mp hsuffix).resolve_left fun heq => ?_
      exact absurd (statement_length_lt hs) (heq ▸ Nat.lt_irrefl _)
    rcases bind_eq_error.mp hd with hend | ⟨u, s', -, hpure⟩
    · have hsuffix := endDeclaration_suffix s
      rw [hend] at hsuffix
      exact .inr (hsuffix.trans htaken)
    · cases hpure

/-- The token that the fault of an attempt is about: one from the first up to the one where the attempt stopped.
Reading goes on behind it, or at it, if an expression may start there, or else it is the end. A keyword that
starts an expression is not blamed by the attempt that starts there, unless for the nesting. -/
structure Culprit (ts : List Token) (last : Token) (a : Attempt) (f : Located SyntaxFault) (n : Nat) : Prop where
  place : ∃ t, (ts ++ [last])[n]? = some t ∧ f.pos = t.pos
  start : a.start ≤ n
  stop : n ≤ a.stop
  resumes : n < a.next ∨ n = a.next ∧ (n = ts.length ∨ RestartsAt ts n)
  behind : RestartsAt ts a.start → f.val ≠ .tooDeep → a.start < n

/-- A fault of a single token is not about a keyword. -/
theorem Accuses.not_isRestart {t : Token} {f : SyntaxFault} (h : Accuses t f) : Parsed.isRestart t = false := by
  cases h <;> simp [Parsed.isRestart, *]

theorem getElem?_append_of_some {n : Nat} {t : Token} (h : ts[n]? = some t) (last : Token) :
    (ts ++ [last])[n]? = some t := by
  rw [List.getElem?_append_left (List.getElem?_eq_some_iff.mp h).1, h]

/-- An attempt that does not fail gets further. -/
theorem declared_lt {i j : Nat} {d : Node}
    (hd : Grammar.declaration (Nonterminal.parse budget) (ts.drop i) = .ok d (ts.drop j)) (hj : j ≤ ts.length) :
    i < j := by
  have hlength := declaration_length_lt hd
  simp only [List.length_drop] at hlength
  omega

section

variable {i j k : Nat} {t : Token} {e : Stop} (ht : ts[i]? = some t)
  (hd : Grammar.declaration (Nonterminal.parse budget) (ts.drop i) = .error e (ts.drop j)) (hj : j ≤ ts.length)
  (hk : Parsed.resume (ts.drop i) (ts.drop j) = ts.drop k) (hk' : k ≤ ts.length)

include ht hd hj hk hk'

/-- An attempt that fails stops at its first token or behind it, and reading goes on further on. -/
theorem failed_bounds : i < k ∧ i ≤ j ∧ j ≤ k := by
  have hlt : i < ts.length := (List.getElem?_eq_some_iff.mp ht).1
  have hij : i ≤ j := le_of_drop_suffix (declaration_error_suffix hd) hj hlt.le
  obtain ⟨hprogress, hforward⟩ := resume_bounds ht hij hj hk hk'
  exact ⟨hprogress, hij, hforward⟩

/-- Where an attempt fails, its fault is about one of its tokens or the next one. -/
theorem exists_culprit (last : Token) :
    ∃ n, Culprit ts last ⟨i, j, k, .error (Parsed.locate t.pos last.pos e)⟩ (Parsed.locate t.pos last.pos e) n := by
  have hlt : i < ts.length := (List.getElem?_eq_some_iff.mp ht).1
  obtain ⟨hprogress, hij, hforward⟩ := failed_bounds ht hd hj hk hk'
  obtain ⟨used, hused, hblame⟩ := declaration_takes budget (ts.drop i)
  rw [hd] at hused
  have hstop : j = i + used.length := by
    have hlength := congrArg List.length hused
    simp only [leftOf, List.length_append, List.length_drop] at hlength
    omega
  have hrestart : RestartsAt ts i → e ≠ .tooDeep → i < j := by
    rintro ⟨u, hu, hstarts⟩ hshallow
    have hdrop := drop_of_getElem? hu
    rw [hdrop] at hd
    have hbehind := (declaration_restart hstarts hd).resolve_left hshallow
    exact le_of_drop_suffix hbehind hj hlt
  generalize hleft : ts.drop j = left at hd hused hblame
  cases hblame e left hd with
  | unfit c rest ex =>
    have hc := getElem?_of_drop hleft
    refine ⟨j, ⟨c, getElem?_append_of_some hc last, rfl⟩, hij, Nat.le_refl _, ?_, fun hi _ => hrestart hi nofun⟩
    rcases Nat.eq_or_lt_of_le hij with rfl | hij
    · exact .inl hprogress
    · exact (resume_at hc hij hk hk').imp_right fun ⟨heq, hat⟩ => ⟨heq, .inr hat⟩
  | atEnd ex =>
    have hall : ts.length ≤ j := List.drop_eq_nil_iff.mp hleft
    have hend : ts.length = k := by omega
    exact ⟨ts.length, ⟨last, by simp, rfl⟩, hlt.le, hall, .inr ⟨hend, .inl rfl⟩, fun _ _ => hlt⟩
  | @fault c f left hc ha =>
    obtain ⟨p, hp⟩ := List.mem_iff_getElem?.mp hc
    have hlength : p < used.length := (List.getElem?_eq_some_iff.mp hp).1
    have hc' : ts[i + p]? = some c := by
      rw [← List.getElem?_drop, hused, List.getElem?_append_left hlength, hp]
    have hpj : i + p < j := by omega
    refine ⟨i + p, ⟨c, getElem?_append_of_some hc' last, rfl⟩, Nat.le_add_right .., hpj.le,
      .inl (Nat.lt_of_lt_of_le hpj hforward), ?_⟩
    rintro ⟨u, hu, hstarts⟩ -
    -- A keyword is not one of the tokens to which such a fault belongs.
    refine Nat.lt_add_of_pos_right (Nat.pos_of_ne_zero fun hzero => ?_)
    subst hzero
    obtain rfl := Option.some.inj (hu.symm.trans hc')
    rw [ha.not_isRestart] at hstarts
    cases hstarts
  | tooDeep =>
    exact ⟨i, ⟨t, getElem?_append_of_some ht last, rfl⟩, Nat.le_refl _, hij, .inl hprogress,
      fun _ hdeep => absurd rfl hdeep⟩

end

end

/-! ## Whole runs -/

section

variable {budget : Nat} {ts : List Token} {last : Token} {i : Nat} {as : List Attempt}

/-- At the end there is nothing to be read. -/
theorem Attempts.eq_nil {stop : Pos} (h : Attempts budget stop ts ts.length as) : as = [] := by
  have hend : ts[ts.length]? = none := List.getElem?_eq_none_iff.mpr (Nat.le_refl _)
  cases h with
  | done => rfl
  | separator ht | declared ht | failed ht =>
    rw [hend] at ht
    cases ht

/-- Each attempt gets further, and its fault has a culprit. -/
theorem Attempts.progress (h : Attempts budget last.pos ts i as) :
    ∀ a ∈ as, a.start < a.next ∧ a.start ≤ a.stop ∧ a.stop ≤ a.next ∧ a.next ≤ ts.length ∧
      ∀ f, a.fault? = some f → ∃ n, Culprit ts last a f n := by
  induction h with
  | done => exact List.forall_mem_nil _
  | separator _ _ _ ih => exact ih
  | @declared i j t d as ht _ hd hj _ ih =>
    refine List.forall_mem_cons.mpr ⟨?_, ih⟩
    have hlt := declared_lt hd hj
    exact ⟨hlt, hlt.le, Nat.le_refl _, hj, nofun⟩
  | @failed i j k t e as ht _ hd hj hk hk' _ ih =>
    refine List.forall_mem_cons.mpr ⟨?_, ih⟩
    obtain ⟨hprogress, hij, hforward⟩ := failed_bounds ht hd hj hk hk'
    obtain ⟨n, hn⟩ := exists_culprit ht hd hj hk hk' last
    refine ⟨hprogress, hij, hforward, hk', fun f hf => ⟨n, ?_⟩⟩
    cases hf
    exact hn

/-- A fault about one of the tokens from an index on, and not about a keyword that stands there, if an expression
may start with it. -/
def FaultFrom (ts : List Token) (last : Token) (i : Nat) (f : Located SyntaxFault) : Prop :=
  ∃ n t, (ts ++ [last])[n]? = some t ∧ f.pos = t.pos ∧ i ≤ n ∧ (RestartsAt ts i → i < n)

theorem FaultFrom.earlier {j : Nat} {f : Located SyntaxFault} (h : FaultFrom ts last j f) (hij : i < j) :
    FaultFrom ts last i f := by
  obtain ⟨n, t, ht, hpos, hn, -⟩ := h
  have hin := Nat.lt_of_lt_of_le hij hn
  exact ⟨n, t, ht, hpos, hin.le, fun _ => hin⟩

theorem Attempts.faults_from (h : Attempts budget last.pos ts i as)
    (hdeep : ∀ f ∈ as.filterMap Attempt.fault?, f.val ≠ .tooDeep) :
    ∀ f ∈ as.filterMap Attempt.fault?, FaultFrom ts last i f := by
  induction h with
  | done => exact List.forall_mem_nil _
  | separator _ _ _ ih => exact fun f hf => (ih hdeep f hf).earlier (Nat.lt_succ_self _)
  | declared _ _ hd hj _ ih => exact fun f hf => (ih hdeep f hf).earlier (declared_lt hd hj)
  | failed ht _ hd hj hk hk' _ ih =>
    obtain ⟨hshallow, hdeep⟩ := List.forall_mem_cons.mp hdeep
    obtain ⟨hprogress, -⟩ := failed_bounds ht hd hj hk hk'
    obtain ⟨n, ⟨t, ht, hpos⟩, hstart, -, -, hbehind⟩ := exists_culprit ht hd hj hk hk' last
    refine List.forall_mem_cons.mpr ⟨⟨n, t, ht, hpos, hstart, fun hi => hbehind hi hshallow⟩, fun f hf => ?_⟩
    exact (ih hdeep f hf).earlier hprogress

/-- The faults are reported in the order of the text. -/
theorem Attempts.ordered (h : Attempts budget last.pos ts i as)
    (hts : (ts ++ [last]).Pairwise fun t u => t.pos.Before u.pos)
    (hdeep : ∀ f ∈ as.filterMap Attempt.fault?, f.val ≠ .tooDeep) :
    (as.filterMap Attempt.fault?).Pairwise fun f g => f.pos.Before g.pos := by
  have hbefore : ∀ {m n : Nat} {t u : Token}, (ts ++ [last])[m]? = some t → (ts ++ [last])[n]? = some u → m < n →
      t.pos.Before u.pos := by
    intro m n t u ht hu hmn
    obtain ⟨hm, rfl⟩ := List.getElem?_eq_some_iff.mp ht
    obtain ⟨hn, rfl⟩ := List.getElem?_eq_some_iff.mp hu
    exact List.pairwise_iff_getElem.mp hts m n hm hn hmn
  induction h with
  | done => exact .nil
  | separator _ _ _ ih => exact ih hdeep
  | declared _ _ _ _ _ ih => exact ih hdeep
  | @failed i j k t e as ht hsep hd hj hk hk' has ih =>
    obtain ⟨-, hdeep⟩ := List.forall_mem_cons.mp hdeep
    obtain ⟨m, ⟨u, hu, hpos⟩, -, -, hresumes, -⟩ := exists_culprit ht hd hj hk hk' last
    refine List.pairwise_cons.mpr ⟨fun g hg => ?_, ih hdeep⟩
    obtain ⟨n, v, hv, hpos', hn, hbehind⟩ := has.faults_from hdeep g hg
    have hmn : m < n := by
      rcases hresumes with hlt | ⟨rfl, rfl | hrestarts⟩
      · exact Nat.lt_of_lt_of_le hlt hn
      · rw [has.eq_nil] at hg
        cases hg
      · exact hbehind hrestarts
    rw [hpos, hpos']
    exact hbefore hu hv hmn

end

/-- Reading a text ends without a crash. It makes attempts, one behind the other, each of which gets at least one
token further and none past the end of input; the fault of an attempt is at one of the tokens from where the
attempt started up to where it stopped; and if no nesting is too deep, the faults stand one behind the other. -/
theorem parse_recovers {source : String} (hdeep : ∀ f ∈ (parse source).errors, f.val ≠ .tooDeep) :
    (parse source).crash? = none ∧
    ∃ ts last attempts, significant (tokenize source) = ts ++ [last] ∧
      (∀ t ∈ ts, t.kind ≠ .endOfInput) ∧ last.kind = .endOfInput ∧
      Attempts nestingBudget last.pos ts 0 attempts ∧
      (parse source).declarations = attempts.filterMap Attempt.declared? ∧
      (parse source).errors = attempts.filterMap Attempt.fault? ∧
      (∀ a ∈ attempts, a.start < a.next ∧ a.start ≤ a.stop ∧ a.stop ≤ a.next ∧ a.next ≤ ts.length) ∧
      (∀ a ∈ attempts, ∀ f, a.fault? = some f →
        ∃ n t, a.start ≤ n ∧ n ≤ a.stop ∧ (ts ++ [last])[n]? = some t ∧ f.pos = t.pos) ∧
      (parse source).errors.Pairwise fun f g => f.pos.Before g.pos := by
  let ts := significant (Lexer.body .first source.toList)
  let last : Token := ⟨.endOfInput, "", Pos.first.after source.toList, none⟩
  have hsignificant : significant (tokenize source) = ts ++ [last] := by
    rw [tokenize_eq_body, significant, List.filter_append]
    rfl
  have hne : ∀ t ∈ ts, t.kind ≠ .endOfInput := fun t ht =>
    (Lexer.body_lexed _ _ t (List.mem_filter.mp ht).1).kind_ne_endOfInput
  have hordered : (ts ++ [last]).Pairwise fun t u => t.pos.Before u.pos := by
    rw [← hsignificant]
    exact (Lexer.tokens_ordered .first source.toList).1.filter _
  obtain ⟨attempts, hattempts, hread⟩ :=
    exists_attempts nestingBudget last.pos (Nat.zero_le ts.length)
  obtain ⟨hdeclarations, herrors⟩ := Prod.mk.inj ((parse_eq_read source).trans hread)
  have hprogress := hattempts.progress
  rw [herrors] at hdeep
  refine ⟨parse_crash? source, ts, last, attempts, hsignificant, hne, rfl, hattempts, hdeclarations, herrors,
    fun a ha => ?_, fun a ha f hf => ?_, herrors ▸ hattempts.ordered hordered hdeep⟩
  · obtain ⟨hnext, hstop, hforward, hwithin, -⟩ := hprogress a ha
    exact ⟨hnext, hstop, hforward, hwithin⟩
  · obtain ⟨-, -, -, -, hculprit⟩ := hprogress a ha
    obtain ⟨n, ⟨t, ht, hpos⟩, hstart, hstop, -, -⟩ := hculprit f hf
    exact ⟨n, t, hstart, hstop, ht, hpos⟩

/-- Faults of the rules, of the lexer and at the end, one of them at a keyword where reading goes on. -/
theorem parse_recovers_restarting :
    let source := "let = 1;; 1 if 2 'x;;\nlet rec f = 2;; (g"
    (∀ f ∈ (parse source).errors, f.val ≠ .tooDeep) ∧ (parse source).crash? = none ∧
      (parse source).errors.map Located.pos = [⟨1, 5⟩, ⟨1, 13⟩, ⟨1, 18⟩, ⟨2, 9⟩, ⟨2, 19⟩] ∧
      ∃ ts last attempts, significant (tokenize source) = ts ++ [last] ∧ last.kind = .endOfInput ∧
        Attempts nestingBudget last.pos ts 0 attempts ∧
        (parse source).errors = attempts.filterMap Attempt.fault? ∧
        (∀ a ∈ attempts, a.start < a.next ∧ a.start ≤ a.stop ∧ a.stop ≤ a.next ∧ a.next ≤ ts.length) ∧
        (∀ a ∈ attempts, ∀ f, a.fault? = some f →
          ∃ n t, a.start ≤ n ∧ n ≤ a.stop ∧ (ts ++ [last])[n]? = some t ∧ f.pos = t.pos) ∧
        (parse source).errors.Pairwise fun f g => f.pos.Before g.pos := by
  intro source
  have hdeep : ∀ f ∈ (parse source).errors, f.val ≠ .tooDeep := by decide +kernel
  obtain ⟨hcrash, ts, last, attempts, hts, -, hlast, hattempts, -, herrors, hbounds, hblamed, hordered⟩ :=
    parse_recovers hdeep
  exact ⟨hdeep, hcrash, by decide +kernel, ts, last, attempts, hts, hlast, hattempts, herrors, hbounds, hblamed,
    hordered⟩

end Camlet
