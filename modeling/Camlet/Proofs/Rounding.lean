import Camlet.Proofs.Floats

/-
  What rounds to a number. A number is known from what it stands for, sign, mantissa and exponent; and no
  value rounds to two of them: the intervals of what rounds to two neighbours meet at an end that counts to
  the one with the even mantissa.
-/

namespace Camlet.Number

open Float.Model Float.Model.UnpackedFloat

/-! ## What a number stands for, and the number -/

/-- There is one value that is not a number. -/
theorem toBits_eq_of_nan {x y : Float} (hx : view x = .nan) (hy : view y = .nan) : x.toBits = y.toBits := by
  have hpacked : ∀ z : Float, view z = .nan → z.toBits.toBitVec = packedNaN Format.binary64 := by
    intro z hz
    rw [view_eq] at hz
    split at hz
    next hscale =>
      split at hz
      · cases hz
      next hfraction =>
        refine z.toModel.valid.eq_packedNaN ?_ fun h => hfraction ?_
        · exact BitVec.eq_of_toNat_eq ((unpackExponent_toNat _).trans hscale)
        · exact (unpackMantissa_toNat z.toBits.toBitVec).symm.trans (congrArg BitVec.toNat h)
    · split at hz <;> cases hz
  exact UInt64.toBitVec_inj.mp ((hpacked x hx).trans (hpacked y hy).symm)

/-- The bits of the number that stands for something; there are none for what is not a number. -/
def View.bits : View → Nat
  | .nan => 0
  | .infinite negative => (if negative then 2 ^ 63 else 0) + 2047 * 2 ^ 52
  | .finite negative m e =>
    (if negative then 2 ^ 63 else 0) + if m < 2 ^ 52 then m else (e + 1075).toNat * 2 ^ 52 + (m - 2 ^ 52)

theorem bits_view {x : Float} (h : view x ≠ .nan) : (view x).bits = x.toBits.toNat := by
  have hlt : x.toBits.toNat < 2 ^ 64 := x.toBits.toNat_lt
  have hsign : (if (x.toBits.toNat / 2 ^ 63 == 1) = true then 2 ^ 63 else 0) = x.toBits.toNat / 2 ^ 63 * 2 ^ 63 := by
    split
    next hone => rw [beq_iff_eq.mp hone, Nat.one_mul]
    next hone =>
      have := mt beq_iff_eq.mpr hone
      omega
  rw [view_eq] at h ⊢
  split
  next hscale =>
    rw [if_pos hscale] at h
    split
    next hfraction =>
      rw [View.bits, hsign]
      omega
    next hfraction =>
      rw [if_neg hfraction] at h
      exact absurd rfl h
  next =>
    split
    next =>
      rw [View.bits, hsign, if_pos (Nat.mod_lt _ (by decide))]
      omega
    next =>
      rw [View.bits, hsign, if_neg (by omega)]
      omega

/-- A number is known from what it stands for. -/
theorem view_inj {x y : Float} (h : view x = view y) : x = y := by
  refine eq_of_toBits ?_
  by_cases hnan : view y = .nan
  · exact toBits_eq_of_nan (h.trans hnan) hnan
  · refine UInt64.toNat_inj.mp ?_
    rw [← bits_view hnan, ← h, bits_view (h ▸ hnan)]

/-- The mantissas and exponents of numbers: 53 binary digits, fewer only with the least exponent. -/
structure IsMantissa (m : Nat) (e : Int) : Prop where
  lt : m < 2 ^ 53
  least : -1074 ≤ e
  full : -1074 < e → 2 ^ 52 ≤ m

theorem isMantissa_view {x : Float} {negative : Bool} {m : Nat} {e : Int} (h : view x = .finite negative m e) :
    IsMantissa m e := by
  have hlt : x.toBits.toNat < 2 ^ 64 := x.toBits.toNat_lt
  rw [view_eq] at h
  split at h
  · split at h <;> cases h
  · split at h
    · cases h
      exact ⟨by omega, by omega, by omega⟩
    · cases h
      exact ⟨by omega, by omega, by omega⟩

/-! ## The numbers that round to another -/

/-- The lower end of what rounds to `m · 2 ^ e`, in quarters of `2 ^ e`: the number below is nearer where the
exponent changes. -/
def lowEnd (m : Nat) (e : Int) : Nat := if m = 2 ^ 52 ∧ -1074 < e then 4 * m - 1 else 4 * m - 2

/-- Between two numbers, which count themselves if `closed`. -/
def Between (closed : Bool) (low high q : ℚ) : Prop := if closed then low ≤ q ∧ q ≤ high else low < q ∧ q < high

theorem Between.le {closed : Bool} {low high q : ℚ} (h : Between closed low high q) : low ≤ q ∧ q ≤ high := by
  unfold Between at h
  split at h
  · exact h
  · exact ⟨h.1.le, h.2.le⟩

/-- Two ranges one of which is not above the other meet in a point at most, which counts to both. -/
theorem Between.meet {closed closed' : Bool} {low high low' high' q : ℚ} (h : Between closed low high q)
    (h' : Between closed' low' high' q) (hle : high ≤ low') : closed = true ∧ closed' = true ∧ high = low' := by
  have hq : q ≤ high := h.le.2
  have hq' : low' ≤ q := h'.le.1
  refine ⟨?_, ?_, by linarith⟩
  · by_contra hopen
    rw [Between, if_neg hopen] at h
    linarith [h.2]
  · by_contra hopen
    rw [Between, if_neg hopen] at h'
    linarith [h'.1]

theorem between_of_lt {closed : Bool} {low high q : ℚ} (hlow : low < q) (hhigh : q < high) :
    Between closed low high q := by
  unfold Between
  split
  · exact ⟨hlow.le, hhigh.le⟩
  · exact ⟨hlow, hhigh⟩

/-- What is rounded to `m · 2 ^ e`. Of two numbers equally near that with the even mantissa is taken. -/
def RoundsTo (m : Nat) (e : Int) (q : ℚ) : Prop :=
  Between (m % 2 == 0) (lowEnd m e * 2 ^ (e - 2)) ((4 * m + 2 : ℕ) * 2 ^ (e - 2)) q

section

variable {m m' : Nat} {e e' : Int} {q : ℚ}

theorem le_lowEnd (m : Nat) (e : Int) : 4 * m - 2 ≤ lowEnd m e := by
  unfold lowEnd
  split <;> omega

theorem lowEnd_full (hm : IsMantissa m e) (he : -1074 < e) : 2 ^ 54 - 1 ≤ lowEnd m e := by
  have := hm.full he
  unfold lowEnd
  split
  next h => omega
  next h => omega

/-- Nothing rounds both to a number and to a larger one: the end that they may share does not count to both. -/
theorem not_roundsTo_larger (hm : IsMantissa m e) (hm' : IsMantissa m' e') (hlt : e < e' ∨ e = e' ∧ m < m')
    (h : RoundsTo m e q) (h' : RoundsTo m' e' q) : False := by
  have hu : (0 : ℚ) < 2 ^ (e - 2) := by positivity
  have hmax : m < 2 ^ 53 := hm.lt
  rcases hlt with hlt | ⟨rfl, hlt⟩
  · -- The larger number has the larger exponent: its lower end is counted in quarters of the smaller's.
    obtain ⟨k, hk⟩ : ∃ k : ℕ, e' - 2 = (e - 2) + (k + 1 : ℕ) := ⟨(e' - e - 1).toNat, by omega⟩
    have hscale : (lowEnd m' e' : ℚ) * 2 ^ (e' - 2) = (lowEnd m' e' * 2 ^ (k + 1) : ℕ) * 2 ^ (e - 2) := by
      rw [hk, zpow_add₀ (by norm_num), zpow_natCast]
      push_cast
      ring
    have hend : (2 ^ 54 - 1) * 2 ≤ lowEnd m' e' * 2 ^ (k + 1) := by
      have hleast : -1074 < e' := Int.lt_of_le_of_lt hm.least hlt
      exact Nat.mul_le_mul (lowEnd_full hm' hleast) (Nat.le_self_pow (by omega) 2)
    have hends : 4 * m + 2 ≤ lowEnd m' e' * 2 ^ (k + 1) := by omega
    unfold RoundsTo at h h'
    rw [hscale] at h'
    obtain ⟨heven, -, hmeet⟩ := h.meet h' (mul_le_mul_of_nonneg_right (by exact_mod_cast hends) hu.le)
    have heq : 4 * m + 2 = lowEnd m' e' * 2 ^ (k + 1) := by exact_mod_cast mul_right_cancel₀ hu.ne' hmeet
    have hmod : m % 2 = 0 := beq_iff_eq.mp heven
    omega
  · -- The exponents are the same, so what the ends share would need both mantissas even.
    have hends : 4 * m + 2 ≤ lowEnd m' e := by
      have := le_lowEnd m' e
      omega
    obtain ⟨heven, heven', hmeet⟩ := h.meet h' (mul_le_mul_of_nonneg_right (by exact_mod_cast hends) hu.le)
    have heq : 4 * m + 2 = lowEnd m' e := by exact_mod_cast mul_right_cancel₀ hu.ne' hmeet
    have hmod : m % 2 = 0 := beq_iff_eq.mp heven
    have hmod' : m' % 2 = 0 := beq_iff_eq.mp heven'
    unfold lowEnd at heq
    split at heq <;> omega

theorem roundsTo_unique (hm : IsMantissa m e) (hm' : IsMantissa m' e') (h : RoundsTo m e q) (h' : RoundsTo m' e' q) :
    m = m' ∧ e = e' := by
  have hsame : ¬ (e < e' ∨ e = e' ∧ m < m') := fun hlt => not_roundsTo_larger hm hm' hlt h h'
  have hsame' : ¬ (e' < e ∨ e' = e ∧ m' < m) := fun hlt => not_roundsTo_larger hm' hm hlt h' h
  omega

end

end Camlet.Number
