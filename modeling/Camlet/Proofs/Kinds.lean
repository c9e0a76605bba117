import Camlet.Proofs.Certainty
import Camlet.Proofs.Runs

/-
  Kinds of values. What is certain of an expression holds of every value that it comes to, in every
  environment of which what is known holds. Over a session of texts, types and values therefore agree
  wherever the kind is certain: in spite of guesses, and of declarations that fail.

  That a kind is certain of a function says that it is certain of every value that applying the function
  gives, so what fits is defined by recursion on the kinds that are certain.
-/

namespace Camlet

open Eval

/-- A value of which the given kinds are certain. -/
def Fits : List Kind → Value → Prop
  | [] => fun _ => True
  | k :: ks => fun v => v.kind = k ∧ ∀ self p b captured, v = .closure self p b captured →
      ∀ w limit frames depth,
        Gives (callEnv v self p captured w) (eval limit frames depth b) (Fits ks) fun _ => True

/-- An environment in which what is known of names holds. -/
abbrev EnvFits (known : Known) (env : Env) : Prop := Backed Fits known env.get?

theorem lenient_true : Lenient fun _ => True := fun _ _ => trivial

theorem gives_true {α : Type} (env : Env) (x : Eval α) : Gives env x (fun _ => True) fun _ => True := by
  unfold Gives
  cases x env <;> trivial

section

variable {ks ls : List Kind} {v w : Value} {known : Known} {env : Env}

theorem Fits.nil (v : Value) : Fits [] v := trivial

theorem Fits.shorten (h : Fits ks v) (hp : ls <+: ks) : Fits ls v := by
  induction ls generalizing ks v with
  | nil => trivial
  | cons l ls ih =>
    cases ks with
    | nil => exact absurd (List.prefix_nil.mp hp) nofun
    | cons k ks =>
      obtain ⟨rfl, hls⟩ := List.cons_prefix_cons.mp hp
      refine ⟨h.1, fun self p b captured hv w limit frames depth => ?_⟩
      have hbody := h.2 self p b captured hv w limit frames depth
      unfold Gives at hbody ⊢
      cases hrun : eval limit frames depth b (callEnv v self p captured w) with
      | ok u env' =>
        rw [hrun] at hbody
        exact ih hbody hls
      | error f env' => trivial

theorem Fits.kind_of_head {k : Kind} (h : Fits ks v) (hk : ks.head? = some k) : v.kind = k := by
  cases ks with
  | nil => cases hk
  | cons l ls =>
    cases hk
    exact h.1

/-- What applying a function gives. -/
theorem Fits.applied {self : Option String} {p : String} {b : Node} {captured : Env}
    (h : Fits ks (.closure self p b captured)) (w : Value) (limit : Int) (frames depth : Nat) :
    Gives (callEnv (.closure self p b captured) self p captured w) (eval limit frames depth b)
      (Fits (Certain.result ks)) fun _ => True := by
  unfold Certain.result
  split
  · exact h.2 self p b captured rfl w limit frames depth
  · exact gives_true _ _

theorem fits_string (s : String) : Fits [.string] (.string s) := ⟨rfl, nofun⟩

theorem fits_char (s : String) : Fits [.char] (.char s) := ⟨rfl, nofun⟩

theorem fits_function (self : Option String) (p : String) (b : Node) (captured : Env) :
    Fits [.function] (.closure self p b captured) :=
  ⟨rfl, fun _ _ _ _ _ _ _ _ _ => gives_true _ _⟩

/-- A number of which no more than its kind is certain. -/
theorem fits_ofNum {a : Num} {k : Kind} (h : (ofNum a).kind = k) : Fits [k] (ofNum a) := by
  refine ⟨h, fun self p b captured hv => ?_⟩
  cases a <;> cases hv

theorem EnvFits.set (h : EnvFits known env) (x : String) (hv : Fits ks v) :
    EnvFits (known.learn x ks) (env.set x v) := by
  refine Backed.learn h (fun _ _ => ⟨v, ?_, hv⟩) fun y hy => ?_
  · rw [Bindings.get?_set, if_pos rfl]
  · rw [Bindings.get?_set, if_neg (Ne.symm hy)]

theorem EnvFits.matched (h : EnvFits known env) (p : Node) (v : Value) :
    EnvFits (known.learnPattern p) (matched env p v) := by
  cases p with
  | bind pos x => exact h.set x (Fits.nil v)
  | _ => exact h

end

/-! ## Operators -/

section

variable {o : String} {a b c : Num} {ks ls : List Kind}

/-- The kind of the result of an operator on numbers of any kind. -/
def Num.joinKind (a b : Num) : Kind :=
  match a, b with
  | .int _, .int _ => .int
  | _, _ => .float

theorem floating_kind {op : Float → Float → Float} (h : Num.floating op a b = .ok c) :
    (ofNum c).kind = .float := by
  obtain ⟨x, -, h⟩ := except_bind_eq_ok.mp h
  obtain ⟨y, -, h⟩ := except_bind_eq_ok.mp h
  cases h
  rfl

theorem mixed_kind {whole : Int → Int → Int} {op : Float → Float → Float}
    (h : Num.mixed whole op a b = .ok c) : (ofNum c).kind = a.joinKind b := by
  cases a with
  | int m =>
    cases b with
    | int n => cases h; rfl
    | float y => exact floating_kind h
  | float x => exact floating_kind h

theorem remainder_kind (h : Num.remainder a b = .ok c) : (ofNum c).kind = a.joinKind b := by
  unfold Num.remainder at h
  split at h
  · cases h
    rfl
  next hboth =>
    obtain ⟨x, -, h⟩ := except_bind_eq_ok.mp h
    obtain ⟨y, -, h⟩ := except_bind_eq_ok.mp h
    split at h
    · cases h
      cases a with
      | int m =>
        cases b with
        | int n => exact absurd rfl (hboth m n rfl)
        | float y => rfl
      | float x => rfl
    · cases h

theorem divide_nonzero (h : Num.divide o a b = .ok c) : ¬ b.isZero = true := by
  intro hzero
  unfold Num.divide at h
  rw [if_pos hzero] at h
  cases h

theorem arithmetic_kind (ho : o ∈ arithmeticOperators) (h : a.operate o b = .ok c) :
    (ofNum c).kind = a.joinKind b := by
  simp only [arithmeticOperators, List.mem_cons, List.not_mem_nil, or_false] at ho
  rcases ho with rfl | rfl | rfl | rfl | rfl
  · exact mixed_kind h
  · exact mixed_kind h
  · exact mixed_kind h
  · exact mixed_kind ((if_neg (divide_nonzero (o := "/") h)).symm.trans h)
  · exact remainder_kind ((if_neg (divide_nonzero (o := "mod") h)).symm.trans h)

theorem floating_operator_kind (ho : o ∈ floatOperators) (h : a.operate o b = .ok c) :
    (ofNum c).kind = .float := by
  simp only [floatOperators, List.mem_cons, List.not_mem_nil, or_false] at ho
  rcases ho with rfl | rfl | rfl | rfl
  · exact floating_kind h
  · exact floating_kind h
  · exact floating_kind h
  · exact floating_kind ((if_neg (divide_nonzero (o := "/.") h)).symm.trans h)

theorem truth_kind (ho : o ∈ logicalOperators ∨ o ∈ comparisonOperators) (h : a.operate o b = .ok c) :
    (ofNum c).kind = .int := by
  simp only [logicalOperators, comparisonOperators, List.mem_cons, List.not_mem_nil, or_false] at ho
  rcases ho with (rfl | rfl) | rfl | rfl | rfl | rfl | rfl | rfl | rfl
  · cases (if_neg (divide_nonzero (o := "&&") (a := a) h)).symm.trans h
  · cases (if_neg (divide_nonzero (o := "||") (a := a) h)).symm.trans h
  all_goals
    cases h
    rfl

theorem fits_arithmetic (ha : Fits ks (ofNum a)) (hb : Fits ls (ofNum b))
    (h : (ofNum c).kind = a.joinKind b) : Fits (Certain.arithmetic ks ls) (ofNum c) := by
  unfold Certain.arithmetic
  split
  next hfloat =>
    refine fits_ofNum (h.trans ?_)
    rcases hfloat with hks | hls
    · have hkind := ha.kind_of_head hks
      cases a with
      | int m => cases hkind
      | float x => rfl
    · have hkind := hb.kind_of_head hls
      cases b with
      | int m => cases hkind
      | float x => cases a <;> rfl
  next =>
    split
    next hint =>
      have hka := ha.kind_of_head hint.1
      have hkb := hb.kind_of_head hint.2
      refine fits_ofNum (h.trans ?_)
      cases a with
      | int m =>
        cases b with
        | int n => rfl
        | float y => cases hkb
      | float x => cases hka
    next => exact Fits.nil _

/-- The result of a binary operator. -/
theorem fits_operate (ha : Fits ks (ofNum a)) (hb : Fits ls (ofNum b)) (h : a.operate o b = .ok c) :
    Fits (Certain.binary o ks ls) (ofNum c) := by
  unfold Certain.binary
  split
  next ho => exact fits_ofNum (truth_kind ho h)
  next =>
    split
    next ho => exact fits_ofNum (floating_operator_kind ho h)
    next =>
      split
      next ho => exact fits_arithmetic ha hb (arithmetic_kind ho h)
      next => exact Fits.nil _

/-- The result of a sign. -/
theorem fits_negate (ha : Fits ks (ofNum a)) (h : a.negate o = .ok c) :
    Fits (Certain.unary o ks) (ofNum c) := by
  unfold Certain.unary
  unfold Num.negate at h
  split
  next ho =>
    rw [if_pos ho] at h
    obtain ⟨x, -, h⟩ := except_bind_eq_ok.mp h
    cases h
    exact fits_ofNum rfl
  next ho =>
    rw [if_neg ho] at h
    have hkind : (ofNum c).kind = (ofNum a).kind := by cases a <;> cases h <;> rfl
    cases ks with
    | nil => exact Fits.nil _
    | cons k ks => exact fits_ofNum (hkind.trans ha.1)

end

/-! ## Expressions -/

/-- Whatever the value of an expression, what is certain of it holds. -/
def Fitting (e : Node) : Prop :=
  ∀ {known : Known} {env : Env}, EnvFits known env → ∀ limit frames depth,
    Keeps env (eval limit frames depth e) (Fits (e.sure known)) fun _ => True

/-- Enough to look at rules: with too few frames for one there is no value. -/
theorem fitting_of_rule {e : Node}
    (h : ∀ {known : Known} {env : Env}, EnvFits known env → ∀ limit n depth,
      Keeps env (rule (eval limit (n + 1) depth) (eval limit n depth) (eval limit n (depth + 1)) limit depth e)
        (Fits (e.sure known)) fun _ => True) : Fitting e := by
  intro known env henv limit frames depth
  match frames with
  | 0 | 1 | 2 => exact keeps_throw trivial
  | n + 3 => exact h henv limit n depth

/-- The closure of a function, recursive or not. Its body is evaluated as that of a plain closure is that
was made where the name of the function is bound already. -/
theorem fits_closure {known : Known} {env : Env} {pos : Pos} {f p : String} {b : Node} (r : Bool)
    (henv : EnvFits known env) (he : Fitting (.lambda pos p b)) :
    Fits ((Node.lambda pos p b).sure (if r then known.learn f [.function] else known))
      (.closure (if r then some f else none) p b env) := by
  cases r with
  | false => exact (he henv 0 3 0).2
  | true =>
    have hplain := (he (henv.set f (fits_function (some f) p b env)) 0 3 0).2
    refine ⟨rfl, fun self q code captured hv w => ?_⟩
    cases hv
    exact hplain.2 none p b _ rfl w

/-- What is certain of an expression holds of what it comes to. -/
theorem eval_fits {e : Node} (he : IsExpression e) : Fitting e := by
  induction he with
  | @letIn pos x v b r hv hr hb ihv ihb =>
    refine fitting_of_rule fun henv limit n depth => ?_
    cases r with
    | false =>
      exact keeps_letIn (ihv henv limit (n + 1) depth) fun w hw => ihb (henv.set x hw) limit (n + 1) depth
    | true =>
      cases hv with
      | @lambda q p code =>
        have hw := fits_closure (f := x) true henv ihv
        exact keeps_letRec (ihb (henv.set x hw) limit (n + 1) depth)
      | _ => cases hr rfl
  | cond pos _ _ _ ihc iht ihe =>
    refine fitting_of_rule fun henv limit n depth => ?_
    exact keeps_cond lenient_true.tolerant (ihc henv limit (n + 1) depth)
      ((iht henv limit (n + 1) depth).mono fun v hv => hv.shorten (Certain.common_left ..))
      ((ihe henv limit (n + 1) depth).mono fun v hv => hv.shorten (Certain.common_right ..))
  | matching pos _ hne hp _ ihs ihe =>
    refine fitting_of_rule fun henv limit n depth => ?_
    obtain ⟨⟨p, e⟩, cs, rfl⟩ := List.exists_cons_of_ne_nil hne
    refine keeps_matching (ihs henv limit (n + 1) depth) (hp _ (List.mem_cons_self ..)) fun v _ => ?_
    exact ihe _ (List.mem_cons_self ..) (henv.matched p v) limit (n + 1) depth
  | lambda pos p _ ih =>
    refine fitting_of_rule fun henv limit n depth => ?_
    refine keeps_get (Q := fun _ => True) (keeps_pure ?_)
    refine ⟨rfl, fun self p b captured hv w limit frames depth => ?_⟩
    cases hv
    exact (ih (henv.set p (Fits.nil w)) limit frames depth).gives
  | apply pos _ _ ihf iha =>
    refine fitting_of_rule fun henv limit n depth => ?_
    refine keeps_apply lenient_true.tolerant (ihf henv limit (n + 1) depth) (iha henv limit (n + 1) depth) ?_
    exact fun _ self p code captured w hv _ => hv.applied w limit n (depth + 1)
  | binary pos o _ _ _ ihl ihr =>
    refine fitting_of_rule fun henv limit n depth => ?_
    refine keeps_binary lenient_true.tolerant (ihl henv limit n depth) (ihr henv limit n depth) (fun ho b => ?_)
      fun a b c ha hb hc => fits_operate ha hb hc
    have hlogical : o ∈ logicalOperators := by
      rcases ho with rfl | rfl <;> decide
    rw [Node.sure, Certain.binary_truth (.inl hlogical)]
    exact fits_ofNum rfl
  | unary pos o _ ih =>
    refine fitting_of_rule fun henv limit n depth => ?_
    exact keeps_unary lenient_true.tolerant (ih henv limit n depth) fun a c ha hc => fits_negate ha hc
  | intLit pos n => exact fitting_of_rule fun _ _ _ _ => keeps_pure (fits_ofNum (a := .int n) rfl)
  | floatLit pos x => exact fitting_of_rule fun _ _ _ _ => keeps_pure (fits_ofNum (a := .float x) rfl)
  | stringLit pos s => exact fitting_of_rule fun _ _ _ _ => keeps_pure (fits_string s)
  | charLit pos s => exact fitting_of_rule fun _ _ _ _ => keeps_pure (fits_char s)
  | ident pos x =>
    refine fitting_of_rule fun henv limit n depth => ?_
    exact keeps_ident (fun v hv => henv.get Fits.nil hv) fun _ => trivial

/-! ## Declarations -/

section

variable {known : Known} {env : Env} {d : Node}

theorem declaration_fits (limit : Int) (hd : IsDeclaration d) (henv : EnvFits known env) :
    DeclarationKeeps limit env (Fits (d.certain known)) (fun _ => True) d := by
  cases hd with
  | letDecl pos x hv => exact fun frames => eval_fits hv henv limit frames 0
  | exprStmt pos he => exact fun frames => (eval_fits he henv limit frames 0).mono fun v _ => Fits.nil v
  | funDecl pos f p ps r hb => exact fits_closure r henv (eval_fits (hb.curry pos (p :: ps)))

/-- What is known after a declaration holds in the environment after it. -/
theorem step_fits {limit : Int} {frames : Nat} {env' : Env} {res : Except Failure Value} {o : Outcome}
    (hd : IsDeclaration d) (henv : EnvFits known env) (heval : evaluated limit frames d env = (res, env'))
    (ho : Outcome.ofRun d res = .ok o) : EnvFits (known.step d o) env' := by
  obtain ⟨v, rfl, rfl, hv⟩ | ⟨f, rfl, rfl, -⟩ :=
    evaluated_declaration hd lenient_true (declaration_fits limit hd henv) heval
  · cases hd with
    | letDecl pos x => cases ho; exact EnvFits.set henv x hv
    | funDecl pos f => cases ho; exact EnvFits.set henv f hv
    | exprStmt => cases ho; exact Backed.forget henv fun _ _ => rfl
  · obtain ⟨g, rfl⟩ := ofRun_error ho
    cases hd <;> exact Backed.forget henv fun _ _ => rfl

end

/-! ## Runs -/

section

variable {limit : Int} {frames : Nat} {c : Context} {env env' : Env} {ds : List Node}
  {bs : List (String × Typing)} {os : List Outcome} {known : Known} {x : String}

theorem step_other {d : Node} {o : Outcome} {name : String} (hname : d.name? = some name) (hne : x ≠ name) :
    known.step d o x = known x := by
  unfold Known.step
  rw [hname]
  cases o <;> simp [Known.learn, hne]

theorem step_own {d : Node} {o : Outcome} {t : Typing} (hname : d.name? = some x)
    (h : Agrees (d.certain known) t) : Agrees (known.step d o x) t := by
  have hlearn : ∀ ks, Agrees ks t → Agrees (known.learn x ks x) t := by
    intro ks hks
    unfold Known.learn
    rw [if_pos rfl]
    split
    · exact agrees_nil t
    · exact hks
  unfold Known.step
  rw [hname]
  cases o with
  | ok v => exact hlearn _ h
  | error f => exact hlearn _ (agrees_nil t)

/-- What is known along a run holds in its environment. -/
theorem Lockstep.fits (h : Lockstep limit frames c env ds bs os env') (hds : ∀ d ∈ ds, IsDeclaration d)
    (henv : EnvFits known env) : EnvFits (known.along ds os) env' := by
  induction h generalizing known with
  | nil => exact henv
  | cons _ _ heval ho _ ih =>
    exact ih (fun d hd => hds d (List.mem_cons_of_mem _ hd))
      (step_fits (hds _ (List.mem_cons_self ..)) henv heval ho)

theorem Lockstep.along_other (h : Lockstep limit frames c env ds bs os env')
    (hx : Bindings.get? bs.reverse x = none) : known.along ds os x = known x := by
  induction h generalizing known with
  | nil => rfl
  | cons _ hname _ _ _ ih =>
    rw [Bindings.get?_reverse_cons, Option.or_eq_none_iff] at hx
    obtain ⟨hlater, hhead⟩ := hx
    refine (ih hlater).trans (step_other hname fun heq => ?_)
    rw [if_pos heq.symm] at hhead
    cases hhead

/-- What is known along a run is what the analysis found last. -/
theorem Lockstep.agree (h : Lockstep limit frames c env ds bs os env') (hds : ∀ d ∈ ds, IsDeclaration d)
    (hs : ScopesAgree known c.scopes) {t : Typing} (hx : Bindings.get? bs.reverse x = some t) :
    Agrees (known.along ds os x) t := by
  induction h generalizing known with
  | nil => cases hx
  | cons hinfer hname _ _ hrest ih =>
    obtain ⟨hcertain, hstep⟩ := declaration_agrees (hds _ (List.mem_cons_self ..)) hinfer hs
    rw [Bindings.get?_reverse_cons, Option.or_eq_some_iff] at hx
    rcases hx with hlater | ⟨hnone, hhead⟩
    · exact ih (fun d hd => hds d (List.mem_cons_of_mem _ hd)) (hstep _) hlater
    · split at hhead
      next heq =>
        cases hhead
        rw [Known.along, hrest.along_other hnone]
        exact step_own (heq ▸ hname) hcertain
      next => cases hhead

/-- A name that a declaration gave a value has a type. -/
theorem Lockstep.typed (h : Lockstep limit frames c env ds bs os env') {v : Result} (hv : .ok v ∈ os) :
    ∃ t, Bindings.get? bs.reverse v.name = some t := by
  induction h with
  | nil => cases hv
  | @cons c c' env env₁ env'' d ds name t bs res o os hinfer hname heval ho _ ih =>
    rw [Bindings.get?_reverse_cons]
    rcases List.mem_cons.mp hv with rfl | hv
    · obtain ⟨-, hv⟩ := ofRun_ok ho
      rw [hname] at hv
      cases hv
      cases Bindings.get? bs.reverse v.name with
      | some t' => exact ⟨t', rfl⟩
      | none => exact ⟨t, by simp⟩
    · obtain ⟨t', ht'⟩ := ih hv
      exact ⟨t', by rw [ht']; rfl⟩

end

/-! ## Sessions -/

/-- What is known after a run in an interactive session. -/
def Known.after (known : Known) (r : Run) : Known := fun x =>
  match r.program with
  | some p => if Session.evaluated r x then known.along p.body r.outcomes x else known x
  | none => known x

/-- What is known in a session holds of its types and of its values. -/
structure Session.Knows (known : Known) (s : Session) : Prop where
  types : Backed Agrees known s.types.get?
  values : EnvFits known s.values

theorem scopesAgree_ofSeed {known : Known} {types : Frame} (h : Backed Agrees known types.get?) :
    ScopesAgree known (.ofSeed types) := by
  intro x hne
  obtain ⟨t, ht, hR⟩ := h x hne
  refine ⟨t, ?_, hR⟩
  unfold Scopes.ofSeed
  split
  next hempty =>
    rw [List.isEmpty_iff.mp hempty] at ht
    cases ht
  next => rw [Scopes.lookup?, Bindings.get?_nil, Scopes.lookup?, ht]

section

variable {s : Session} {known : Known} {r : Run} {x : String}

theorem evaluated_iff : Session.evaluated r x = true ↔ ∃ v, .ok v ∈ r.outcomes ∧ v.name = x := by
  unfold Session.evaluated Run.results
  rw [List.any_eq_true]
  constructor
  · rintro ⟨v, hv, hx⟩
    obtain ⟨o, ho, hov⟩ := List.mem_filterMap.mp hv
    cases o with
    | error f => cases hov
    | ok w =>
      cases hov
      exact ⟨v, ho, beq_iff_eq.mp hx⟩
  · rintro ⟨v, hv, hx⟩
    exact ⟨v, List.mem_filterMap.mpr ⟨_, hv, rfl⟩, beq_iff_eq.mpr hx⟩

/-- A name that no declaration in a run gave a value stays what it was. -/
theorem absorb_unevaluated (h : Session.evaluated r x = false) :
    (s.absorb r).types.get? x = s.types.get? x ∧ (s.absorb r).values.get? x = s.values.get? x := by
  rcases absorb_cases s r with heq | ⟨hi, a, ha⟩
  · exact ⟨by rw [heq], by rw [heq]⟩
  · rw [absorb_types hi ha, absorb_values hi ha, h]
    exact ⟨rfl, rfl⟩

/-- What an interactive session knows after a run. -/
theorem absorb_knows {source : String} (hi : s.interactive = true) (hs : s.Knows known)
    (h : run source s.types s.values s.options.limit = .ok r) : (s.absorb r).Knows (known.after r) := by
  have hbefore : ∀ {x}, Session.evaluated r x = false → known.after r x = known x := by
    intro x hx
    unfold Known.after
    rw [hx]
    split <;> rfl
  -- A name with a new value was bound and typed by the run.
  have hafter : ∀ {x}, Session.evaluated r x = true → known.after r x ≠ [] →
      (∃ t, (s.absorb r).types.get? x = some t ∧ Agrees (known.after r x) t) ∧
        ∃ v, (s.absorb r).values.get? x = some v ∧ Fits (known.after r x) v := by
    intro x hx hne
    obtain ⟨v, hv, rfl⟩ := evaluated_iff.mp hx
    obtain ⟨hos, -⟩ | ⟨p, a, hp, ha, hds, hrun⟩ := run_lockstep h
    · rw [hos] at hv
      cases hv
    · have heq : known.after r v.name = known.along p.body r.outcomes v.name := by
        unfold Known.after
        rw [hp, hx]
        rfl
      rw [heq] at hne ⊢
      obtain ⟨w, hw, hfits⟩ := hrun.fits hds hs.values v.name hne
      obtain ⟨t, ht⟩ := hrun.typed hv
      have hhas : Bindings.has r.env v.name = true := by rw [Bindings.has, hw]; rfl
      refine ⟨⟨t, ?_, hrun.agree hds (scopesAgree_ofSeed hs.types) ht⟩, w, ?_, hfits⟩
      · rw [absorb_types hi ha, hx, hhas, Bool.and_self, if_pos rfl, ht]
        rfl
      · rw [absorb_values hi ha, hx, if_pos rfl, hw]
        rfl
  constructor
  · intro x hne
    cases hx : Session.evaluated r x with
    | false =>
      rw [hbefore hx] at hne ⊢
      rw [(absorb_unevaluated hx).1]
      exact hs.types x hne
    | true => exact (hafter hx hne).1
  · intro x hne
    cases hx : Session.evaluated r x with
    | false =>
      rw [hbefore hx] at hne ⊢
      rw [(absorb_unevaluated hx).2]
      exact hs.values x hne
    | true => exact (hafter hx hne).2

/-- What is known in a session after some texts. A text that ends the program adds nothing. -/
def Known.over (known : Known) (s : Session) : List String → Known
  | [] => known
  | source :: sources =>
    let t := s.turn source
    match t.ending with
    | .ok r => (known.after r).over t.session sources
    | .error _ => known.over t.session sources

/-- What is known in an interactive session, of which errors are not fatal, holds after all texts. -/
theorem after_knows (hi : s.interactive = true) (hf : s.reporter.fatal = false) (hs : s.Knows known)
    (sources : List String) : (s.after sources).Knows (known.over s sources) := by
  induction sources generalizing s known with
  | nil => exact hs
  | cons source sources ih =>
    rw [Session.after, Known.over]
    obtain ⟨⟨e, he⟩, hsame⟩ | ⟨r, hr, habsorb, hend⟩ := turn_cases s source
    · rw [he, hsame]
      exact ih hi hf ⟨hs.types, hs.values⟩
    · obtain ⟨hi', -, hf'⟩ := absorb_unchanged (s.at source) r
      rw [hend hf, habsorb]
      refine ih (hi'.trans hi) ((congrArg Reporter.fatal hf').trans hf) ?_
      exact absorb_knows (s := s.at source) hi ⟨hs.types, hs.values⟩ hr

end

/-- After any texts in a fresh interactive session, a name of which a kind is certain has both a type and
a value, and both are of that kind. -/
theorem type_describes_value (style : Emphasis) (options : Options) (sources : List String) (x : String)
    (k : Kind) (ks : List Kind)
    (h : Known.nothing.over (.interactiveWith style options) sources x = k :: ks) :
    k ≠ .unknown ∧
      (∃ t, ((Session.interactiveWith style options).after sources).types.get? x = some (some t) ∧
        t.kind = k) ∧
      ∃ v, ((Session.interactiveWith style options).after sources).values.get? x = some v ∧ v.kind = k := by
  have hs := after_knows (s := .interactiveWith style options) rfl rfl ⟨backed_nothing, backed_nothing⟩ sources
  have hne : Known.nothing.over (.interactiveWith style options) sources x ≠ [] := by
    rw [h]
    exact List.cons_ne_nil k ks
  obtain ⟨t, ht, hagrees⟩ := hs.types x hne
  obtain ⟨v, hv, hfits⟩ := hs.values x hne
  rw [h] at hagrees hfits
  obtain ⟨ty, rfl, hkind, hk⟩ := hagrees.isKind_cons
  exact ⟨hk, ⟨ty, ht, hkind⟩, v, hv, hfits.1⟩

/-- A function of two parameters, applied in another text. -/
theorem type_describes_value_applied :
    Known.nothing.over (.interactiveWith .plain {})
        ["let add a = fun b -> 1 + 2;;", "let n = add 3 \"x\";; let m = n / 0;;"] "n" = [.int] ∧
      (∃ t, ((Session.interactiveWith .plain {}).after
          ["let add a = fun b -> 1 + 2;;", "let n = add 3 \"x\";; let m = n / 0;;"]).types.get? "n" =
        some (some t) ∧ t.kind = .int) ∧
      ∃ v, ((Session.interactiveWith .plain {}).after
          ["let add a = fun b -> 1 + 2;;", "let n = add 3 \"x\";; let m = n / 0;;"]).values.get? "n" =
        some v ∧ v.kind = .int := by
  have h : Known.nothing.over (.interactiveWith .plain {})
      ["let add a = fun b -> 1 + 2;;", "let n = add 3 \"x\";; let m = n / 0;;"] "n" = [.int] := by
    decide +kernel
  exact ⟨h, (type_describes_value .plain {} _ _ _ _ h).2⟩

/-- Where a kind is guessed, types and values need not agree: a conditional has the type of the branch of
which something is known. -/
theorem not_type_describes_value :
    ¬ ∀ (style : Emphasis) (options : Options) (sources : List String) (x : String) (t : Ty) (v : Value),
      ((Session.interactiveWith style options).after sources).types.get? x = some (some t) →
      ((Session.interactiveWith style options).after sources).values.get? x = some v →
      t.kind ≠ .unknown → v.kind = t.kind := by
  intro h
  have htype : ((Session.interactiveWith .plain {}).after
      ["let f x = if 1 then x else 1;; let y = f \"s\";;"]).types.get? "y" = some (some .int) := by
    decide +kernel
  have hvalue : (((Session.interactiveWith .plain {}).after
      ["let f x = if 1 then x else 1;; let y = f \"s\";;"]).values.get? "y").map Value.kind = some .string := by
    decide +kernel
  obtain ⟨v, hv, hkind⟩ := Option.map_eq_some_iff.mp hvalue
  have hint := h .plain {} _ "y" _ v htype hv nofun
  rw [hkind] at hint
  cases hint

end Camlet
