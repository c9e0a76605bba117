/-
  Runs of stateful steps. Reading tokens, the analysis and the evaluation are all steps of one kind: they
  change a state, and give a value or stop with a reason. These lemmas say what a run of a composed step
  is in terms of the runs of its parts.
-/

namespace Camlet.Stateful

variable {ε σ α β : Type} {s s' : σ}

@[simp] theorem pure_run (a : α) (s : σ) : (pure a : EStateM ε σ α) s = .ok a s := rfl

@[simp] theorem get_run (s : σ) : (get : EStateM ε σ σ) s = .ok s s := rfl

@[simp] theorem set_run (t s : σ) : (set t : EStateM ε σ PUnit) s = .ok ⟨⟩ t := rfl

@[simp] theorem modify_run (f : σ → σ) (s : σ) : (modify f : EStateM ε σ PUnit) s = .ok ⟨⟩ (f s) := rfl

@[simp] theorem throw_run (e : ε) (s : σ) : (throw e : EStateM ε σ α) s = .error e s := rfl

theorem bind_run (x : EStateM ε σ α) (f : α → EStateM ε σ β) (s : σ) :
    (x >>= f) s = match x s with
      | .ok a t => f a t
      | .error e t => .error e t := rfl

/-- Reading the state is going on with it. -/
@[simp] theorem get_bind (f : σ → EStateM ε σ β) (s : σ) : (get >>= f) s = f s s := rfl

/-- A run that follows a step which went well is the run of what follows. -/
theorem bind_ok {x : EStateM ε σ α} {a : α} (h : x s = .ok a s') (f : α → EStateM ε σ β) :
    (x >>= f) s = f a s' := by
  rw [bind_run, h]

/-- What follows a step only matters where the step goes well. -/
theorem bind_congr_ok {x : EStateM ε σ α} {f g : α → EStateM ε σ β}
    (h : ∀ a t, x s = .ok a t → f a t = g a t) : (x >>= f) s = (x >>= g) s := by
  rw [bind_run, bind_run]
  cases hx : x s with
  | ok a t => exact h a t hx
  | error e t => rfl

/-- A composed step goes well if both parts do, one after the other. -/
theorem bind_eq_ok {x : EStateM ε σ α} {f : α → EStateM ε σ β} {b : β} :
    (x >>= f) s = .ok b s' ↔ ∃ a t, x s = .ok a t ∧ f a t = .ok b s' := by
  rw [bind_run]
  cases x s with
  | ok a t => simp [and_assoc]
  | error e t => simp

/-- A composed step stops if the first part does, or if that goes well and the second part stops. -/
theorem bind_eq_error {x : EStateM ε σ α} {f : α → EStateM ε σ β} {e : ε} :
    (x >>= f) s = .error e s' ↔ x s = .error e s' ∨ ∃ a t, x s = .ok a t ∧ f a t = .error e s' := by
  rw [bind_run]
  cases x s with
  | ok a t => simp [and_assoc]
  | error e t => simp

/-! ## A run that goes on where another stops -/

section

variable {E : ε → Prop} {e : ε} {x y z : EStateM ε σ α}

/-- `y` does what `x` does, unless `x` stops for a reason of the kind `E`. -/
def ExtendsPast (E : ε → Prop) (x y : EStateM ε σ α) : Prop :=
  ∀ s, y s = x s ∨ ∃ e s', E e ∧ x s = .error e s'

namespace ExtendsPast

theorem refl (x : EStateM ε σ α) : ExtendsPast E x x := fun _ => .inl rfl

theorem throw (he : E e) (y : EStateM ε σ α) : ExtendsPast E (throw e) y := fun s => .inr ⟨e, s, he, rfl⟩

theorem trans (hxy : ExtendsPast E x y) (hyz : ExtendsPast E y z) : ExtendsPast E x z := by
  intro s
  rcases hxy s with h | h
  · rcases hyz s with h' | ⟨e, s', he, h'⟩
    · exact .inl (h'.trans h)
    · exact .inr ⟨e, s', he, h ▸ h'⟩
  · exact .inr h

theorem bind {f g : α → EStateM ε σ β} (hx : ExtendsPast E x y) (hf : ∀ a, ExtendsPast E (f a) (g a)) :
    ExtendsPast E (x >>= f) (y >>= g) := by
  intro s
  simp only [bind_run]
  rcases hx s with h | ⟨e, s', he, h⟩
  · rw [h]
    cases x s with
    | ok a t => exact hf a t
    | error e' t => exact .inl rfl
  · exact .inr ⟨e, s', he, by rw [h]⟩

theorem bind_left {f : α → EStateM ε σ β} (hx : ExtendsPast E x y) :
    ExtendsPast E (x >>= f) (y >>= f) :=
  hx.bind fun a => refl (f a)

theorem bind_right {f g : α → EStateM ε σ β} (hf : ∀ a, ExtendsPast E (f a) (g a)) :
    ExtendsPast E (x >>= f) (x >>= g) :=
  (refl x).bind hf

theorem ite {c : Prop} [Decidable c] {x' y' : EStateM ε σ α} (h : ExtendsPast E x y)
    (h' : ExtendsPast E x' y') : ExtendsPast E (if c then x else x') (if c then y else y') := by
  split
  · exact h
  · exact h'

/-- What goes well for the first goes well for the second. -/
theorem ok (h : ExtendsPast E x y) {a : α} (hx : x s = .ok a s') : y s = .ok a s' := by
  rcases h s with h | ⟨e, t, -, h⟩
  · rw [h, hx]
  · rw [hx] at h
    cases h

/-- What goes well for the second goes well for the first, unless that stops for the one reason there is. -/
theorem ok_or (h : ExtendsPast (· = e) x y) {a : α} (hy : y s = .ok a s') :
    x s = .ok a s' ∨ ∃ t, x s = .error e t := by
  rcases h s with hx | ⟨_, t, rfl, hx⟩
  · exact .inl (hx.symm.trans hy)
  · exact .inr ⟨t, hx⟩

end ExtendsPast

end

/-! ## Two runs side by side -/

variable {δ τ γ ι : Type} {R R' R'' : σ → τ → Prop} {P : α → β → Prop}

/-- From states related by `R`, wherever the first step goes well, so does the second; then their values
are related by `P`, and the states they end in by `R'`. -/
def Mirrors (R : σ → τ → Prop) (x : EStateM ε σ α) (y : EStateM δ τ β) (P : α → β → Prop)
    (R' : σ → τ → Prop) : Prop :=
  ∀ s t, R s t → ∀ a s', x s = .ok a s' → ∃ b t', y t = .ok b t' ∧ P a b ∧ R' s' t'

theorem mirrors_pure {a : α} {b : β} (h : P a b) :
    Mirrors R (pure a : EStateM ε σ α) (pure b : EStateM δ τ β) P R := by
  intro s t hst a' s' hx
  cases hx
  exact ⟨b, t, rfl, h, hst⟩

/-- Nothing is asked for where the first step stops. -/
theorem mirrors_throw {e : ε} {y : EStateM δ τ β} : Mirrors R (throw e : EStateM ε σ α) y P R' := by
  intro s t _ a s' hx
  cases hx

theorem mirrors_get {k : σ → EStateM ε σ α} {l : τ → EStateM δ τ β}
    (h : ∀ s t, R s t → Mirrors R (k s) (l t) P R') : Mirrors R (get >>= k) (get >>= l) P R' :=
  fun s t hst => h s t hst s t hst

theorem Mirrors.bind {x : EStateM ε σ α} {y : EStateM δ τ β} {k : α → EStateM ε σ γ}
    {l : β → EStateM δ τ ι} {P' : γ → ι → Prop} (h : Mirrors R x y P R')
    (hk : ∀ a b, P a b → Mirrors R' (k a) (l b) P' R'') : Mirrors R (x >>= k) (y >>= l) P' R'' := by
  intro s t hst c s' hx
  obtain ⟨a, u, hxa, hka⟩ := bind_eq_ok.mp hx
  obtain ⟨b, v, hyb, hab, huv⟩ := h s t hst a u hxa
  obtain ⟨d, t', hlb, hcd⟩ := hk a b hab u v huv c s' hka
  exact ⟨d, t', (bind_ok hyb l).trans hlb, hcd⟩

/-- Runs that end in the same way: both go well, with values related by `P` in states related by `R'`, or both
stop for the same reason, in states related by `E`. -/
inductive SameEnd (P : α → β → Prop) (R' E : σ → τ → Prop) :
    EStateM.Result ε σ α → EStateM.Result ε τ β → Prop
  | ok {a : α} {b : β} {s : σ} {t : τ} : P a b → R' s t → SameEnd P R' E (.ok a s) (.ok b t)
  | error {e : ε} {s : σ} {t : τ} : E s t → SameEnd P R' E (.error e s) (.error e t)

/-- From states related by `R`, the two steps end in the same way. -/
def Matches (R : σ → τ → Prop) (x : EStateM ε σ α) (y : EStateM ε τ β) (P : α → β → Prop)
    (R' E : σ → τ → Prop) : Prop :=
  ∀ s t, R s t → SameEnd P R' E (x s) (y t)

variable {E E' : σ → τ → Prop}

theorem Matches.mono {x : EStateM ε σ α} {y : EStateM ε τ β} (h : Matches R x y P R' E)
    (hR : ∀ s t, R' s t → R'' s t) (hE : ∀ s t, E s t → E' s t) : Matches R x y P R'' E' := by
  intro s t hst
  have hend := h s t hst
  generalize x s = p, y t = q at hend ⊢
  cases hend with
  | ok hab hst' => exact .ok hab (hR _ _ hst')
  | error hst' => exact .error (hE _ _ hst')

theorem matches_pure {a : α} {b : β} (h : P a b) :
    Matches R (pure a : EStateM ε σ α) (pure b : EStateM ε τ β) P R E :=
  fun _ _ hst => .ok h hst

theorem matches_throw {e : ε} : Matches R (throw e : EStateM ε σ α) (throw e : EStateM ε τ β) P R' R :=
  fun _ _ hst => .error hst

theorem matches_get {k : σ → EStateM ε σ α} {l : τ → EStateM ε τ β}
    (h : ∀ s t, R s t → Matches R (k s) (l t) P R' E) : Matches R (get >>= k) (get >>= l) P R' E :=
  fun s t hst => h s t hst s t hst

theorem Matches.bind {x : EStateM ε σ α} {y : EStateM ε τ β} {k : α → EStateM ε σ γ}
    {l : β → EStateM ε τ ι} {P' : γ → ι → Prop} (h : Matches R x y P R' E)
    (hk : ∀ a b, P a b → Matches R' (k a) (l b) P' R'' E) : Matches R (x >>= k) (y >>= l) P' R'' E := by
  intro s t hst
  have hend := h s t hst
  rw [bind_run, bind_run]
  generalize x s = p, y t = q at hend ⊢
  cases hend with
  | ok hab hst' => exact hk _ _ hab _ _ hst'
  | error hst' => exact .error hst'

end Camlet.Stateful
