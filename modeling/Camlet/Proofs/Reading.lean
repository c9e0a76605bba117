import Camlet.Proofs.Programs

/-
  How far a rule reads. Whatever the tokens are, each rule of the grammar takes a stretch of them that
  holds no separator, looks no further than at the token behind it, and where it stops it blames the next
  token or one that it has taken. This holds however the rule ends, so it also says what a fault leaves to
  be read.
-/

namespace Camlet

open Stateful

variable {α β : Type}

/-! ## Orderly runs -/

/-- The tokens that are left where a run ends. -/
def leftOf : EStateM.Result Stop (List Token) α → List Token
  | .ok _ rest => rest
  | .error _ rest => rest

/-- The same run with more tokens behind. -/
def extend (more : List Token) :
    EStateM.Result Stop (List Token) α → EStateM.Result Stop (List Token) α
  | .ok a rest => .ok a (rest ++ more)
  | .error e rest => .error e (rest ++ more)

/-- A fault of a single token. -/
inductive Accuses (t : Token) : SyntaxFault → Prop where
  | repeatedParam : t.kind = .identifier → Accuses t (.repeatedParam t.lexeme)
  | notFunction : t.kind = .identifier → Accuses t (.notFunction t.lexeme)
  | tooLarge : t.kind = .int → Number.readInt? t.lexeme = none → Accuses t (.tooLarge t.lexeme)
  | unreadable : t.kind = .float → Number.readFloat? t.lexeme = none → Accuses t (.unreadable t.lexeme)

/-- A stop is about the next token, or about one of those that were taken. -/
inductive Blames (taken : List Token) : Stop → List Token → Prop where
  | unfit (t : Token) (ts : List Token) (ex : Expectation) : Blames taken (.unfit t ex) (t :: ts)
  | atEnd (ex : Expectation) : Blames taken (.atEnd ex) []
  | fault {t : Token} {f : SyntaxFault} (left : List Token) :
    t ∈ taken → Accuses t f → Blames taken (.fault t.pos f) left
  | tooDeep (left : List Token) : Blames taken .tooDeep left

theorem Blames.mono {taken taken' left : List Token} {e : Stop} (h : Blames taken e left)
    (hmem : ∀ t ∈ taken, t ∈ taken') : Blames taken' e left := by
  cases h with
  | unfit t ts ex => exact .unfit t ts ex
  | atEnd ex => exact .atEnd ex
  | fault _ ht ha => exact .fault _ (hmem _ ht) ha
  | tooDeep => exact .tooDeep _

/-- A run on given tokens takes a stretch without separators, and, unless it takes them all, does the same
when more tokens stand behind. The tokens `known` were taken before. -/
structure OrderlyAt (known : List Token) (x : Parser α) (ts : List Token) : Prop where
  takes : ∃ used, ts = used ++ leftOf (x ts) ∧ (∀ t ∈ used, isSeparator t = false) ∧
    ∀ e left, x ts = .error e left → Blames (known ++ used) e left
  looks : ∀ more, leftOf (x ts) ≠ [] → x (ts ++ more) = extend more (x ts)

/-- A parser all of whose runs are orderly. -/
def Orderly (known : List Token) (x : Parser α) : Prop := ∀ ts, OrderlyAt known x ts

namespace OrderlyAt

variable {known ts : List Token} {x y : Parser α}

theorem mono {known' : List Token} (h : OrderlyAt known x ts) (hmem : ∀ t ∈ known, t ∈ known') :
    OrderlyAt known' x ts := by
  obtain ⟨⟨used, hts, hused, hblame⟩, hlooks⟩ := h
  refine ⟨⟨used, hts, hused, fun e left he => (hblame e left he).mono fun t ht => ?_⟩, hlooks⟩
  rcases List.mem_append.mp ht with ht | ht
  · exact List.mem_append_left _ (hmem t ht)
  · exact List.mem_append_right _ ht

theorem bind {f : α → Parser β} (hx : OrderlyAt known x ts) (hf : ∀ a, Orderly known (f a)) :
    OrderlyAt known (x >>= f) ts := by
  obtain ⟨⟨used, hts, hused, hblame⟩, hlooks⟩ := hx
  cases hr : x ts with
  | error e left =>
    rw [hr] at hts hlooks
    have hrun : (x >>= f) ts = .error e left := by rw [bind_run, hr]
    refine ⟨⟨used, by rw [hrun]; exact hts, hused, ?_⟩, fun more hne => ?_⟩
    · rintro e' left' he
      rw [hrun] at he
      cases he
      exact hblame e left hr
    · rw [hrun] at hne ⊢
      rw [bind_run, hlooks more hne]
      rfl
  | ok a rest =>
    rw [hr] at hts hlooks
    obtain ⟨⟨used', hrest, hused', hblame'⟩, hlooks'⟩ := hf a rest
    have hrun : (x >>= f) ts = f a rest := by rw [bind_run, hr]
    refine ⟨⟨used ++ used', ?_, ?_, fun e left he => ?_⟩, fun more hne => ?_⟩
    · rw [hrun, List.append_assoc, ← hrest]
      exact hts
    · intro t ht
      exact (List.mem_append.mp ht).elim (hused t) (hused' t)
    · rw [hrun] at he
      exact (hblame' e left he).mono fun t ht => by
        rcases List.mem_append.mp ht with ht | ht <;> simp [ht]
    · rw [hrun] at hne ⊢
      have hrest_ne : rest ≠ [] := by
        rw [hrest]
        simp [hne]
      rw [bind_run, hlooks more hrest_ne]
      exact hlooks' more hne

/-- Nothing can be taken where there is nothing. -/
theorem nil (hy : OrderlyAt known y []) (h : x [] = y []) : OrderlyAt known x [] := by
  obtain ⟨⟨used, hts, hused, hblame⟩, -⟩ := hy
  have hleft : leftOf (x []) = [] := by
    rw [h]
    exact (List.nil_eq_append_iff.mp hts).2
  refine ⟨⟨[], by simp [hleft], List.forall_mem_nil _, fun e left he => ?_⟩, fun more hne => absurd hleft hne⟩
  obtain rfl := (List.nil_eq_append_iff.mp hts).1
  exact hblame e left (h ▸ he)

/-- A parser that does what another does in front of the token. -/
theorem keep {t : Token} (hy : OrderlyAt known y (t :: ts))
    (h : ∀ ts, x (t :: ts) = y (t :: ts)) : OrderlyAt known x (t :: ts) := by
  obtain ⟨htakes, hlooks⟩ := hy
  refine ⟨by rw [h]; exact htakes, fun more hne => ?_⟩
  rw [h] at hne ⊢
  rw [List.cons_append, h, ← List.cons_append]
  exact hlooks more hne

/-- A parser that takes the token and goes on as another. -/
theorem take {t : Token} (ht : isSeparator t = false) (hy : OrderlyAt (t :: known) y ts)
    (h : ∀ ts, x (t :: ts) = y ts) : OrderlyAt known x (t :: ts) := by
  obtain ⟨⟨used, hts, hused, hblame⟩, hlooks⟩ := hy
  refine ⟨⟨t :: used, ?_, List.forall_mem_cons.mpr ⟨ht, hused⟩, fun e left he => ?_⟩,
    fun more hne => ?_⟩
  · rw [h, List.cons_append, ← hts]
  · exact (hblame e left (h ts ▸ he)).mono fun u hu => by grind
  · rw [h] at hne ⊢
    rw [List.cons_append, h]
    exact hlooks more hne

end OrderlyAt

namespace Orderly

variable {known : List Token} {x y : Parser α}

theorem of_nil (h : Orderly [] x) : Orderly known x := fun ts => (h ts).mono (List.forall_mem_nil _)

theorem pure (a : α) : Orderly known (pure a : Parser α) :=
  fun _ => ⟨⟨[], rfl, List.forall_mem_nil _, fun _ _ he => by cases he⟩, fun _ _ => rfl⟩

theorem fail (ex : Expectation) : Orderly known (Parser.fail ex : Parser α) := by
  intro ts
  cases ts with
  | nil =>
    refine ⟨⟨[], rfl, List.forall_mem_nil _, fun e left he => ?_⟩, fun _ h => absurd rfl h⟩
    cases he
    exact .atEnd ex
  | cons t ts =>
    refine ⟨⟨[], rfl, List.forall_mem_nil _, fun e left he => ?_⟩, fun _ _ => rfl⟩
    cases he
    exact .unfit t ts ex

theorem fault {t : Token} {f : SyntaxFault} (ht : t ∈ known) (ha : Accuses t f) :
    Orderly known (throw (.fault t.pos f) : Parser α) := by
  refine fun ts => ⟨⟨[], rfl, List.forall_mem_nil _, fun e left he => ?_⟩, fun _ _ => rfl⟩
  cases he
  exact .fault ts (List.mem_append_left _ ht) ha

theorem tooDeep : Orderly known (throw .tooDeep : Parser α) := by
  refine fun ts => ⟨⟨[], rfl, List.forall_mem_nil _, fun e left he => ?_⟩, fun _ _ => rfl⟩
  cases he
  exact .tooDeep ts

theorem bind {f : α → Parser β} (hx : Orderly known x) (hf : ∀ a, Orderly known (f a)) :
    Orderly known (x >>= f) :=
  fun ts => (hx ts).bind hf

theorem ite {c : Prop} [Decidable c] (hx : c → Orderly known x) (hy : ¬c → Orderly known y) :
    Orderly known (if c then x else y) := by
  split
  next h => exact hx h
  next h => exact hy h

/-- A parser that looks at the next token first. -/
theorem look (nil : OrderlyAt known x []) (cons : ∀ t ts, OrderlyAt known x (t :: ts)) :
    Orderly known x
  | [] => nil
  | t :: ts => cons t ts

/-- Steps that are bounded by the tokens left are orderly, if further steps would change nothing. -/
theorem bounded {loop : List Token → Parser α} (h : ∀ bound, Orderly known (loop bound))
    (hbound : ∀ bound ts, ts.length ≤ bound.length → loop bound ts = loop ts ts) :
    Orderly known (get >>= loop) := by
  intro ts
  obtain ⟨htakes, -⟩ := h ts ts
  refine ⟨htakes, fun more hne => ?_⟩
  have hmore : loop (ts ++ more) ts = loop ts ts := hbound _ _ (by simp)
  simp only [get_bind] at hne ⊢
  rw [← hmore] at hne ⊢
  exact (h (ts ++ more) ts).looks more hne

theorem suffix (h : Orderly known x) (ts : List Token) : leftOf (x ts) <:+ ts := by
  obtain ⟨used, hts, -⟩ := (h ts).takes
  exact ⟨used, hts.symm⟩

theorem length_le (h : Orderly known x) (ts : List Token) : (leftOf (x ts)).length ≤ ts.length :=
  (h.suffix ts).length_le

theorem ok_length_le (h : Orderly known x) {ts rest : List Token} {a : α} (hx : x ts = .ok a rest) :
    rest.length ≤ ts.length := by
  have := h.length_le ts
  rwa [hx] at this

end Orderly

/-- A loop that stops without tokens, and that goes on only with what is left behind a first one, does not
depend on the bound on its steps, as long as there are no more tokens than that. -/
theorem loop_bound {σ α : Type} {f : List Token → σ → Parser α}
    (hnil : ∀ bound bound' s, f bound s [] = f bound' s [])
    (hstep : ∀ b b' bound bound' t ts s,
      (∀ s' rest, rest.length ≤ ts.length → f bound s' rest = f bound' s' rest) →
      f (b :: bound) s (t :: ts) = f (b' :: bound') s (t :: ts))
    {bound bound' ts : List Token} (hb : ts.length ≤ bound.length) (hb' : ts.length ≤ bound'.length) (s : σ) :
    f bound s ts = f bound' s ts := by
  induction bound generalizing bound' ts s with
  | nil =>
    obtain rfl := List.eq_nil_of_length_eq_zero (Nat.le_zero.mp hb)
    exact hnil [] bound' s
  | cons b bound ih =>
    cases ts with
    | nil => exact hnil (b :: bound) bound' s
    | cons t ts =>
      cases bound' with
      | nil => cases hb'
      | cons b' bound' =>
        refine hstep b b' bound bound' t ts s fun s' rest hrest => ih ?_ ?_ s'
        · exact Nat.le_trans hrest (Nat.le_of_succ_le_succ hb)
        · exact Nat.le_trans hrest (Nat.le_of_succ_le_succ hb')

/-! ## Single tokens and parameters -/

section

variable {known : List Token}

theorem not_isSeparator {t : Token} (h : t.kind ≠ .delimiter) : isSeparator t = false := by
  simp [isSeparator, Token.isA, h]

theorem isA_not_isSeparator {t : Token} {kind : TokenKind} {lexeme : String}
    (h : t.isA kind lexeme = true) (hs : ¬ (kind = .delimiter ∧ lexeme = ";;")) :
    isSeparator t = false := by
  obtain ⟨rfl, rfl⟩ := Token.isA_iff.mp h
  rw [← Bool.not_eq_true]
  exact fun h => hs (Token.isA_iff.mp h)

theorem orderly_accept {kind : TokenKind} {lexeme : String}
    (hs : ¬ (kind = .delimiter ∧ lexeme = ";;")) : Orderly known (Parser.accept kind lexeme) := by
  refine .look (.nil (Orderly.pure false []) rfl) fun t ts => ?_
  cases ht : t.isA kind lexeme with
  | true => exact .take (isA_not_isSeparator ht hs) (Orderly.pure true ts) fun _ => accept_true ht
  | false =>
    exact .keep (Orderly.pure false (t :: ts)) fun _ => accept_false (stops_cons.mpr ht)

theorem orderly_expect {kind : TokenKind} {lexeme : String} {ex : Expectation}
    (hs : ¬ (kind = .delimiter ∧ lexeme = ";;")) : Orderly known (Parser.expect kind lexeme ex) := by
  refine (orderly_accept hs).bind fun b => ?_
  cases b with
  | true => exact .pure _
  | false => exact .fail ex

theorem orderly_params : Orderly known Parser.params := by
  suffices ∀ ts known seen, OrderlyAt known (Parser.paramsFrom seen) ts from fun ts => this ts known []
  intro ts
  induction ts with
  | nil => exact fun known seen => .nil (Orderly.pure [] []) rfl
  | cons t ts ih =>
    intro known seen
    by_cases hk : t.kind = .identifier
    · have hsep : isSeparator t = false := not_isSeparator (by simp [hk])
      by_cases hseen : (seen.contains t.lexeme && t.lexeme != "_") = true
      · exact .take hsep (Orderly.fault (List.mem_cons_self ..) (.repeatedParam hk) ts) fun ts => by
          simp only [Parser.paramsFrom, hk, hseen, if_true]
          rfl
      · let further : Parser (List String) := Parser.paramsFrom (t.lexeme :: seen)
        have hfurther : OrderlyAt (t :: known) (further >>= fun ps => pure (t.lexeme :: ps)) ts :=
          OrderlyAt.bind (ih (t :: known) (t.lexeme :: seen)) fun _ => .pure _
        refine .take hsep hfurther fun ts => ?_
        simp only [Parser.paramsFrom, hk, if_true]
        rw [if_neg hseen, bind_run, show further ts = Parser.paramsFrom (t.lexeme :: seen) ts from rfl]
        cases Parser.paramsFrom (t.lexeme :: seen) ts <;> rfl
    · exact .keep (Orderly.pure [] (t :: ts)) fun ts => by simp [Parser.paramsFrom, hk]

end

/-- A literal that cannot be read is a numeral. -/
theorem accuses_atom {t : Token} {f : SyntaxFault} (h : Grammar.atom? t = some (.error f)) :
    Accuses t f := by
  unfold Grammar.atom? at h
  split at h
  next hk =>
    cases hn : Number.readInt? t.lexeme with
    | some n => simp [hn] at h
    | none =>
      simp only [hn, Option.some.injEq, Except.error.injEq] at h
      exact h ▸ .tooLarge hk hn
  next hk =>
    cases hx : Number.readFloat? t.lexeme with
    | some x => simp [hx] at h
    | none =>
      simp only [hx, Option.some.injEq, Except.error.injEq] at h
      exact h ▸ .unreadable hk hx
  all_goals simp at h

/-! ## One lemma for each rule -/

section Rules

variable {known : List Token} {sub : Nonterminal → Parser Node} (h : ∀ nt, Orderly [] (sub nt))

include h

theorem orderly_binding : Orderly known (Grammar.binding sub) := by
  refine (orderly_accept (by decide)).bind fun recursive => .look ?_ fun name ts => ?_
  · exact .nil (Orderly.fail (.binder recursive) []) rfl
  · by_cases hk : name.kind = .identifier
    · have hrest : Orderly (name :: known) (do
          let ps ← Parser.params
          Parser.expect .operator "=" (.equals name.lexeme ps)
          let value ← sub .bound
          if recursive && ps.isEmpty && !value.isLambda then
            throw (.fault name.pos (.notFunction name.lexeme))
          return (⟨recursive, name.lexeme, ps, value⟩ : Binding)) := by
        refine orderly_params.bind fun ps => (orderly_expect (by decide)).bind fun _ =>
          (h .bound).of_nil.bind fun value => ?_
        refine .ite (fun _ => .bind ?_ fun _ => .pure _) fun _ => .pure _
        exact .fault (List.mem_cons_self ..) (.notFunction hk)
      exact .take (not_isSeparator (by simp [hk])) (hrest ts) fun ts => by
        simp only [get_bind, hk, if_true]
        rfl
    · exact .keep (Orderly.fail (.binder recursive) (name :: ts)) fun ts => by
        simp only [get_bind, hk, if_false]

theorem orderly_letIn (pos : Pos) : Orderly known (Grammar.letIn sub pos) :=
  (orderly_binding h).bind fun _ => (orderly_expect (by decide)).bind fun _ =>
    (h _).of_nil.bind fun _ => .pure _

theorem orderly_cond (pos : Pos) : Orderly known (Grammar.cond sub pos) := by
  have hsub : Orderly known (sub .expression) := (h .expression).of_nil
  refine hsub.bind fun condition => ?_
  refine (orderly_expect (by decide)).bind fun _ => ?_
  refine hsub.bind fun thenBranch => ?_
  refine (orderly_expect (by decide)).bind fun _ => ?_
  exact hsub.bind fun elseBranch => .pure _

theorem orderly_lambda (pos : Pos) : Orderly known (Grammar.lambda sub pos) := by
  refine orderly_params.bind fun ps => ?_
  have htail : Orderly known (Parser.expect .operator "->" .arrowAfterParams >>= fun _ =>
      sub .expression >>= fun e => pure (Node.curry pos ps e)) :=
    (orderly_expect (by decide)).bind fun _ => (h _).of_nil.bind fun _ => .pure _
  exact .ite (fun _ => (Orderly.fail _).bind fun _ => htail) fun _ => htail

omit h in
theorem orderly_pattern : Orderly known Grammar.pattern := by
  refine .look (.nil (Orderly.fail .pattern []) rfl) fun t ts => ?_
  by_cases hk : t.kind = .identifier
  · exact .take (not_isSeparator (by simp [hk]))
      (Orderly.pure (if t.lexeme = "_" then .wildcard t.pos else .bind t.pos t.lexeme) ts) fun ts => by
        simp only [Grammar.pattern, get_bind, hk, if_true]
        rfl
  · exact .keep (Orderly.fail .pattern (t :: ts)) fun ts => by
      simp only [Grammar.pattern, get_bind, hk, if_false]

theorem orderly_case : Orderly known (Grammar.case sub) :=
  (orderly_expect (by decide)).bind fun _ => orderly_pattern.bind fun _ =>
    (orderly_expect (by decide)).bind fun _ => (h _).of_nil.bind fun _ => .pure _

theorem orderly_cases (bound : List Token) : Orderly known (Grammar.cases sub bound) := by
  induction bound with
  | nil => exact .pure []
  | cons b bound ih =>
    refine .look (.nil (Orderly.pure [] []) rfl) fun t ts => ?_
    by_cases ht : t.isA .delimiter "|" = true
    · exact .keep (((orderly_case h).bind fun c => ih.bind fun cs => .pure (c :: cs)) (t :: ts))
        fun ts => by simp only [Grammar.cases, get_bind, ht, if_true]
    · exact .keep (Orderly.pure [] (t :: ts)) fun ts => by
        simp only [Grammar.cases, get_bind, ht]
        rfl

/-- Each case takes its bar, so that the bound on their number is never reached. -/
theorem cases_bound {bound bound' ts : List Token} (hb : ts.length ≤ bound.length)
    (hb' : ts.length ≤ bound'.length) : Grammar.cases sub bound ts = Grammar.cases sub bound' ts := by
  refine loop_bound (f := fun bound (_ : Unit) => Grammar.cases sub bound) ?_ ?_ hb hb' ()
  · intro bound bound' _
    cases bound <;> cases bound' <;> rfl
  · intro b b' bound bound' t ts _ hrest
    simp only [Grammar.cases, get_bind]
    split
    next ht =>
      refine bind_congr_ok fun c rest hc => ?_
      have hlength : rest.length ≤ ts.length := by
        have hbar : Parser.expect .delimiter "|" .caseBar (t :: ts) = .ok () ts :=
          expect_eq_ok.mpr ⟨t, rfl, ht⟩
        rw [Grammar.case, bind_ok hbar] at hc
        have htail : Orderly [] (Grammar.pattern >>= fun p =>
            Parser.expect .operator "->" .arrowAfterPattern >>= fun _ =>
            sub .expression >>= fun e => pure (p, e)) :=
          orderly_pattern.bind fun _ => (orderly_expect (by decide)).bind fun _ =>
            (h _).bind fun _ => .pure _
        exact htail.ok_length_le hc
      rw [bind_run, bind_run, hrest () rest hlength]
    next => rfl

theorem orderly_matching (pos : Pos) : Orderly known (Grammar.matching sub pos) := by
  refine (h _).of_nil.bind fun _ => (orderly_expect (by decide)).bind fun _ =>
    (orderly_case h).bind fun first => ?_
  have hcases : Orderly known (get >>= Grammar.cases sub) :=
    .bounded (orderly_cases h) fun bound ts hb => cases_bound h hb (Nat.le_refl _)
  exact hcases.bind fun rest => .pure _

theorem orderly_expression : Orderly known (Grammar.expression sub) := by
  refine .look (.nil ((h (.level operatorLevels)).of_nil []) rfl) fun t ts => ?_
  by_cases hlet : t.isA .keyword "let" = true
  · exact .take (isA_not_isSeparator hlet (by decide)) (orderly_letIn h t.pos ts) fun _ =>
      expression_form.1 hlet
  by_cases hif : t.isA .keyword "if" = true
  · exact .take (isA_not_isSeparator hif (by decide)) (orderly_cond h t.pos ts) fun _ =>
      expression_form.2.1 hif
  by_cases hfun : t.isA .keyword "fun" = true
  · exact .take (isA_not_isSeparator hfun (by decide)) (orderly_lambda h t.pos ts) fun _ =>
      expression_form.2.2.1 hfun
  by_cases hmatch : t.isA .keyword "match" = true
  · exact .take (isA_not_isSeparator hmatch (by decide)) (orderly_matching h t.pos ts) fun _ =>
      expression_form.2.2.2 hmatch
  · have hform : isForm t = false := by simp [isForm, hlet, hif, hfun, hmatch]
    exact .keep ((h (.level operatorLevels)).of_nil (t :: ts)) fun _ =>
      expression_level (stops_cons.mpr hform)

theorem orderly_unary : Orderly known (Grammar.unary sub) := by
  refine .look (.nil ((h .application).of_nil []) rfl) fun t ts => ?_
  cases ht : isSign t with
  | true =>
    have hkind : t.kind = .operator := by
      rcases (Bool.or_eq_true _ _).mp ht with ht | ht <;> exact (Token.isA_iff.mp ht).1
    exact .take (not_isSeparator (by simp [hkind]))
      (((h .unary).of_nil.bind fun e => .pure (.unary t.pos t.lexeme e)) ts) fun _ => unary_sign ht
  | false =>
    exact .keep ((h .application).of_nil (t :: ts)) fun _ => unary_application (stops_cons.mpr ht)

theorem orderly_bracketed (pos : Pos) : Orderly known (Grammar.bracketed sub pos) :=
  (h _).of_nil.bind fun _ => (orderly_expect (by decide)).bind fun _ => .pure _

theorem orderly_primary : Orderly known (Grammar.primary sub) := by
  refine .look (.nil (Orderly.fail .expression []) rfl) fun t ts => ?_
  cases ha : Grammar.atom? t with
  | none =>
    by_cases hopen : t.isA .delimiter "(" = true
    · exact .take (isA_not_isSeparator hopen (by decide)) (orderly_bracketed h t.pos ts) fun ts => by
        simp only [Grammar.primary, get_bind, ha, hopen, if_true]
        rfl
    · exact .keep (Orderly.fail .expression (t :: ts)) fun ts => by
        simp only [Grammar.primary, get_bind, ha, hopen]
        rfl
  | some r =>
    have hkind : t.kind ≠ .delimiter := by
      intro hk
      simp [Grammar.atom?, hk] at ha
    cases r with
    | ok e =>
      exact .take (not_isSeparator hkind) (Orderly.pure e ts) fun ts => by
        simp only [Grammar.primary, get_bind, ha]
        rfl
    | error f =>
      exact .take (not_isSeparator hkind) (Orderly.fault (List.mem_cons_self ..) (accuses_atom ha) ts)
        fun ts => by
          simp only [Grammar.primary, get_bind, ha]
          rfl

end Rules

section Loops

variable {known : List Token} {x : Parser Node}

theorem orderly_chain (h : Orderly [] x) (operators : List String) (bound : List Token) (e : Node) :
    Orderly known (Grammar.chain operators x bound e) := by
  induction bound generalizing e known with
  | nil => exact .pure e
  | cons b bound ih =>
    refine .look (.nil (Orderly.pure e []) rfl) fun t ts => ?_
    cases ht : Grammar.isOperator operators t with
    | true =>
      have hkind : t.kind ≠ .delimiter := by
        intro hk
        simp [Grammar.isOperator, hk] at ht
      have hrest : Orderly (t :: known) (x >>= fun right => Grammar.chain operators x bound
          (.binary e.pos (operatorName t.lexeme) e right)) := h.of_nil.bind fun right => ih _
      exact .take (not_isSeparator hkind) (hrest ts) fun ts => by
        simp only [Grammar.chain, get_bind, ht, if_true]
        rfl
    | false =>
      exact .keep (Orderly.pure e (t :: ts)) fun ts => by
        simp only [Grammar.chain, get_bind, ht]
        rfl

/-- Each step takes its operator, so that the bound on the steps is never reached. -/
theorem chain_bound (h : Orderly [] x) {operators : List String} {bound bound' ts : List Token}
    (hb : ts.length ≤ bound.length) (hb' : ts.length ≤ bound'.length) (e : Node) :
    Grammar.chain operators x bound e ts = Grammar.chain operators x bound' e ts := by
  refine loop_bound (f := Grammar.chain operators x) ?_ ?_ hb hb' e
  · intro bound bound' e
    cases bound <;> cases bound' <;> rfl
  · intro b b' bound bound' t ts e hrest
    simp only [Grammar.chain, get_bind]
    split
    · refine bind_congr_ok fun _ rest hset => ?_
      cases hset
      exact bind_congr_ok fun right rest hright => hrest _ rest (h.ok_length_le hright)
    · rfl

theorem orderly_arguments (h : Orderly [] x) (bound : List Token) (e : Node) :
    Orderly known (Grammar.arguments x bound e) := by
  induction bound generalizing e with
  | nil => exact .pure e
  | cons b bound ih =>
    refine .look (.nil (Orderly.pure e []) rfl) fun t ts => ?_
    cases ht : Grammar.startsPrimary t with
    | true =>
      exact .keep ((h.of_nil.bind fun argument => ih (.apply e.pos e argument)) (t :: ts)) fun ts => by
        simp only [Grammar.arguments, get_bind, ht, if_true]
    | false =>
      exact .keep (Orderly.pure e (t :: ts)) fun ts => by
        simp only [Grammar.arguments, get_bind, ht]
        rfl

/-- Each argument takes a token, so that the bound on their number is never reached. -/
theorem arguments_bound (h : ∀ {ts rest e}, x ts = .ok e rest → rest.length < ts.length)
    {bound bound' ts : List Token} (hb : ts.length ≤ bound.length) (hb' : ts.length ≤ bound'.length)
    (e : Node) : Grammar.arguments x bound e ts = Grammar.arguments x bound' e ts := by
  refine loop_bound (f := Grammar.arguments x) ?_ ?_ hb hb' e
  · intro bound bound' e
    cases bound <;> cases bound' <;> rfl
  · intro b b' bound bound' t ts e hrest
    simp only [Grammar.arguments, get_bind]
    split
    · refine bind_congr_ok fun argument rest hargument => ?_
      exact hrest _ rest (Nat.le_of_lt_succ (h hargument))
    · rfl

end Loops

/-- What is read as an expression takes a token at least. -/
theorem parse_length_lt {budget : Nat} {nt : Nonterminal} (hnt : nt.Proper) {ts rest : List Token}
    {e : Node} (h : nt.parse budget ts = .ok e rest) : rest.length < ts.length := by
  obtain ⟨loose, used, rfl, hd, -⟩ := (recognizes_parse budget nt hnt).phrase h
  obtain ⟨t, us, rfl, -⟩ := derives_opening _ _ _ _ _ hd
  rw [List.length_append, List.length_cons]
  omega

/-- Every rule is orderly, within any budget. -/
theorem orderly_parse (budget : Nat) (nt : Nonterminal) : Orderly [] (nt.parse budget) := by
  induction budget generalizing nt with
  | zero => exact .tooDeep
  | succ n ih =>
    match nt with
    | .expression => exact orderly_expression ih
    | .bound => exact ih .expression
    | .level [] => exact ih .unary
    | .level (operators :: tighter) =>
      refine (ih (.level tighter)).bind fun left => .bounded (orderly_chain (ih _) _ · left) ?_
      exact fun bound ts hb => chain_bound (ih _) hb (Nat.le_refl _) left
    | .unary => exact orderly_unary ih
    | .application =>
      refine (ih .primary).bind fun callee => .bounded (orderly_arguments (ih _) · callee) ?_
      have hprimary : Nonterminal.primary.Proper := trivial
      exact fun bound ts hb => arguments_bound (parse_length_lt hprimary) hb (Nat.le_refl _) callee
    | .primary => exact orderly_primary ih

/-! ## Declarations -/

namespace Grammar

/-- A declaration that a `let` at `pos` starts, behind it, without what must follow it. -/
def letStatement (sub : Nonterminal → Parser Node) (pos : Pos) : Parser Node := do
  let b ← binding sub
  if ← Parser.accept .keyword "in" then
    let body ← sub .expression
    return .exprStmt pos (.letIn pos b.name (.curry pos b.params b.value) body b.recursive)
  else return declarationOf pos b

/-- A declaration without what must follow it. -/
def statement (sub : Nonterminal → Parser Node) : Parser Node := do
  match ← get with
  | t :: ts =>
    if t.isA .keyword "let" then set ts; letStatement sub t.pos
    else return .exprStmt t.pos (← sub .expression)
  | [] => Parser.fail .expression

end Grammar

theorem letDeclaration_eq (sub : Nonterminal → Parser Node) (pos : Pos) :
    Grammar.letDeclaration sub pos =
      Grammar.letStatement sub pos >>= fun d => Grammar.endDeclaration >>= fun _ => pure d := by
  rw [Grammar.letDeclaration, Grammar.letStatement, bind_assoc]
  refine bind_congr fun b => ?_
  rw [bind_assoc]
  refine bind_congr fun inside => ?_
  cases inside <;> simp

/-- A declaration is a statement, and what must follow it. -/
theorem declaration_eq (sub : Nonterminal → Parser Node) :
    Grammar.declaration sub =
      Grammar.statement sub >>= fun d => Grammar.endDeclaration >>= fun _ => pure d := by
  rw [Grammar.declaration, Grammar.statement, bind_assoc]
  refine bind_congr fun ts => ?_
  cases ts with
  | nil =>
    funext ts
    cases ts <;> rfl
  | cons t ts =>
    by_cases hlet : t.isA .keyword "let" = true
    · simp only [hlet, if_true, bind_assoc, letDeclaration_eq]
    · simp only [hlet, Bool.false_eq_true, if_false, bind_assoc, pure_bind]

theorem orderly_letStatement {known : List Token} (budget : Nat) (pos : Pos) :
    Orderly known (Grammar.letStatement (Nonterminal.parse budget) pos) := by
  have h := orderly_parse budget
  refine (orderly_binding h).bind fun b => (orderly_accept (by decide)).bind fun inside => ?_
  exact .ite (fun _ => (h .expression).of_nil.bind fun _ => .pure _) fun _ => .pure _

section

variable {sub : Nonterminal → Parser Node} {t : Token}

theorem statement_let (ht : t.isA .keyword "let" = true) (ts : List Token) :
    Grammar.statement sub (t :: ts) = Grammar.letStatement sub t.pos ts := by
  simp only [Grammar.statement, get_bind, ht, if_true]
  rfl

theorem statement_expression (ht : t.isA .keyword "let" = false) (ts : List Token) :
    Grammar.statement sub (t :: ts) =
      (sub .expression >>= fun e => pure (.exprStmt t.pos e)) (t :: ts) := by
  simp only [Grammar.statement, get_bind, ht]
  rfl

end

theorem orderly_statement (budget : Nat) : Orderly [] (Grammar.statement (Nonterminal.parse budget)) := by
  refine .look (.nil (Orderly.fail .expression []) rfl) fun t ts => ?_
  cases hlet : t.isA .keyword "let" with
  | true =>
    exact .take (isA_not_isSeparator hlet (by decide)) (orderly_letStatement budget t.pos ts)
      (statement_let hlet)
  | false =>
    exact .keep (((orderly_parse budget .expression).bind fun e => .pure (.exprStmt t.pos e)) (t :: ts))
      (statement_expression hlet)

/-- A statement takes a token at least. -/
theorem statement_length_lt {budget : Nat} {ts rest : List Token} {d : Node}
    (h : Grammar.statement (Nonterminal.parse budget) ts = .ok d rest) : rest.length < ts.length := by
  cases ts with
  | nil => cases h
  | cons t ts =>
    cases hlet : t.isA .keyword "let" with
    | true =>
      rw [statement_let hlet] at h
      have horderly : Orderly [] (Grammar.letStatement (Nonterminal.parse budget) t.pos) :=
        orderly_letStatement budget t.pos
      exact Nat.lt_succ_of_le (horderly.ok_length_le h)
    | false =>
      rw [statement_expression hlet, bind_eq_ok] at h
      obtain ⟨e, s, he, hd⟩ := h
      cases hd
      exact (parse_length_lt (show Nonterminal.expression.Proper from trivial) he)

end Camlet
