import Camlet.Proofs.Decimals

/-
  Decimals are read as the numbers nearest to them. A fraction is counted in steps of the power of two that
  gives its quotient 53 binary digits, and the quotient is rounded; where it is rounded up to 54 digits, the
  bits of the mantissa carry into those of the exponent, and so does what is beyond the largest number into
  the bits of the infinities. What is decided by the size of a decimal alone agrees with this. There is one
  nearest number, and what is printed of a number rounds to it, so it is read back.
-/

namespace Camlet.Number

/-! ## Fractions -/

/-- A quotient is rounded by a half at most, and by a half only to an even number. -/
theorem roundDiv_spec (num : Nat) {den : Nat} (hden : 0 < den) :
    2 * (roundDiv num den * den) ≤ 2 * num + den ∧ 2 * num ≤ 2 * (roundDiv num den * den) + den ∧
      (roundDiv num den % 2 = 1 →
        2 * (roundDiv num den * den) < 2 * num + den ∧ 2 * num < 2 * (roundDiv num den * den) + den) := by
  have hsum : num / den * den + num % den = num := Nat.div_add_mod' num den
  have hlt : num % den < den := Nat.mod_lt num hden
  have hsucc : (num / den + 1) * den = num / den * den + den := Nat.succ_mul ..
  simp only [roundDiv]
  generalize num / den = q at *
  generalize num % den = r at *
  split
  · generalize q * den = p at *
    omega
  · split
    · rw [hsucc]
      generalize q * den = p at *
      omega
    · split
      · generalize q * den = p at *
        omega
      · rw [hsucc]
        generalize q * den = p at *
        omega

/-- A fraction counted in steps of `2 ^ e`, as it is computed with. -/
theorem scaled_quotient (num den : Nat) (e : Int) :
    ((num * (scaling e).2 : ℕ) : ℚ) / (den * (scaling e).1 : ℕ) = num / den / 2 ^ e := by
  rw [← (scaling_quotient e).1, div_div_div_eq, Nat.cast_mul, Nat.cast_mul]

theorem scaled_pos {den : Nat} (hden : 0 < den) (e : Int) : 0 < den * (scaling e).1 :=
  Nat.mul_pos hden (scaling_quotient e).2.1

/-- How a fraction lies to a multiple of `2 ^ e` shows in whole numbers. -/
theorem scaled_lt_iff (num : Nat) {den : Nat} (hden : 0 < den) (e : Int) (k : Nat) :
    num * (scaling e).2 < den * (scaling e).1 * k ↔ (num / den : ℚ) < k * 2 ^ e := by
  have hpos : (0 : ℚ) < (den * (scaling e).1 : ℕ) := by exact_mod_cast scaled_pos hden e
  rw [← div_lt_iff₀ (by positivity : (0 : ℚ) < 2 ^ e), ← scaled_quotient, div_lt_iff₀ hpos, mul_comm (k : ℚ)]
  norm_cast

theorem two_pow_mul_zpow (k : ℕ) {e f : ℤ} (h : k + e = f) : (2 : ℚ) ^ k * 2 ^ e = 2 ^ f := by
  rw [← zpow_natCast, ← zpow_add₀ (by norm_num), h]

/-- The size of a fraction is known from the binary digits of its parts, up to a factor of two. -/
theorem log2_quotient {num den : Nat} (hnum : 0 < num) (hden : 0 < den) :
    (2 : ℚ) ^ ((num.log2 : Int) - den.log2 - 1) ≤ num / den ∧
      (num / den : ℚ) < 2 ^ ((num.log2 : Int) - den.log2 + 1) := by
  have hden' : (0 : ℚ) < den := by exact_mod_cast hden
  have hlow : (2 : ℚ) ^ num.log2 ≤ num := by exact_mod_cast Nat.log2_self_le hnum.ne'
  have hhigh : (num : ℚ) < 2 ^ (num.log2 + 1) := by exact_mod_cast Nat.lt_log2_self
  have hlow' : (2 : ℚ) ^ den.log2 ≤ den := by exact_mod_cast Nat.log2_self_le hden.ne'
  have hhigh' : (den : ℚ) < 2 ^ (den.log2 + 1) := by exact_mod_cast Nat.lt_log2_self
  constructor
  · rw [le_div_iff₀' hden']
    calc (den : ℚ) * 2 ^ ((num.log2 : Int) - den.log2 - 1)
      _ ≤ 2 ^ (den.log2 + 1) * 2 ^ ((num.log2 : Int) - den.log2 - 1) :=
        mul_le_mul_of_nonneg_right hhigh'.le (by positivity)
      _ = 2 ^ (num.log2 : Int) := two_pow_mul_zpow _ (by push_cast; ring)
      _ ≤ num := by rwa [zpow_natCast]
  · rw [div_lt_iff₀' hden']
    calc (num : ℚ)
      _ < 2 ^ (num.log2 + 1) := hhigh
      _ = 2 ^ ((num.log2 + 1 : ℕ) : Int) := (zpow_natCast ..).symm
      _ = 2 ^ den.log2 * 2 ^ ((num.log2 : Int) - den.log2 + 1) := (two_pow_mul_zpow _ (by push_cast; ring)).symm
      _ ≤ den * 2 ^ ((num.log2 : Int) - den.log2 + 1) := mul_le_mul_of_nonneg_right hlow' (by positivity)

/-- But for the least exponent, the exponent that is chosen for a fraction gives its mantissa 53 binary digits: the
binary digits of the parts leave two exponents for this. -/
theorem exists_exponent {num den : Nat} (hnum : 0 < num) (hden : 0 < den) :
    ∃ e, exponentFor num den = max e (-1074) ∧
      (2 : ℚ) ^ 52 * 2 ^ e ≤ num / den ∧ (num / den : ℚ) < 2 ^ 53 * 2 ^ e := by
  obtain ⟨hlow, hhigh⟩ := log2_quotient hnum hden
  obtain ⟨e, he⟩ : ∃ e : Int, (num.log2 : Int) - den.log2 - 52 = e := ⟨_, rfl⟩
  rw [← two_pow_mul_zpow 51 (e := e) (by push_cast; omega)] at hlow
  rw [← two_pow_mul_zpow 53 (e := e) (by push_cast; omega)] at hhigh
  have hiff : num * (scaling e).2 < den * (scaling e).1 * Nat.pow 2 52 ↔ (num / den : ℚ) < (2 ^ 52 : ℕ) * 2 ^ e :=
    scaled_lt_iff num hden e (2 ^ 52)
  simp only [exponentFor, he]
  split
  next hlt =>
    have hsmall := hiff.mp hlt
    push_cast at hsmall
    have hhalf : (2 : ℚ) ^ 1 * 2 ^ (e - 1) = 2 ^ e := two_pow_mul_zpow 1 (by push_cast; ring)
    rw [← hhalf] at hlow hsmall
    exact ⟨e - 1, rfl, by linarith, by linarith⟩
  next hge =>
    have hlarge := not_lt.mp (mt hiff.mpr hge)
    push_cast at hlarge
    exact ⟨e, rfl, hlarge, hhigh⟩

theorem exponentFor_spec {num den : Nat} (hnum : 0 < num) (hden : 0 < den) :
    -1074 ≤ exponentFor num den ∧ (num / den : ℚ) < 2 ^ 53 * 2 ^ exponentFor num den ∧
      (-1074 < exponentFor num den → (2 : ℚ) ^ 52 * 2 ^ exponentFor num den ≤ num / den) := by
  obtain ⟨e, he, hlow, hhigh⟩ := exists_exponent hnum hden
  rw [he]
  refine ⟨Int.le_max_right .., ?_, fun hlt => ?_⟩
  · refine lt_of_lt_of_le hhigh (mul_le_mul_of_nonneg_left ?_ (by positivity))
    exact zpow_le_zpow_right₀ (by norm_num) (Int.le_max_left ..)
  · rwa [max_eq_left (by omega)]

/-! ## The number nearest to a fraction -/

/-- Whether a fraction rounds to a number shows in whole numbers. -/
theorem roundsTo_of_scaled {num den m : Nat} {e : Int} {q : ℚ} (hden : 0 < den) (hq : (num / den : ℚ) = q / 2 ^ e)
    (hlow : lowEnd m e * den ≤ 4 * num) (hhigh : 4 * num ≤ (4 * m + 2) * den)
    (hodd : m % 2 = 1 → lowEnd m e * den < 4 * num ∧ 4 * num < (4 * m + 2) * den) : RoundsTo m e q := by
  have hden' : (0 : ℚ) < den := by exact_mod_cast hden
  have hunit : (0 : ℚ) < 2 ^ (e - 2) := by positivity
  have hvalue : q = 4 * num / den * 2 ^ (e - 2) := by
    have hpow : (2 : ℚ) ^ 2 * 2 ^ (e - 2) = 2 ^ e := two_pow_mul_zpow 2 (by push_cast; ring)
    rw [eq_div_iff (by positivity)] at hq
    rw [← hq, ← hpow]
    ring
  unfold RoundsTo Between
  rw [hvalue]
  split
  next heven =>
    constructor
    · refine mul_le_mul_of_nonneg_right ?_ hunit.le
      rw [le_div_iff₀ hden']
      exact_mod_cast hlow
    · refine mul_le_mul_of_nonneg_right ?_ hunit.le
      rw [div_le_iff₀ hden']
      exact_mod_cast hhigh
  next hnot =>
    obtain ⟨hlow, hhigh⟩ := hodd (by simpa using hnot)
    constructor
    · refine mul_lt_mul_of_pos_right ?_ hunit
      rw [lt_div_iff₀ hden']
      exact_mod_cast hlow
    · refine mul_lt_mul_of_pos_right ?_ hunit
      rw [div_lt_iff₀ hden']
      exact_mod_cast hhigh

/-- A quotient is rounded to its mantissa. -/
theorem roundsTo_roundDiv {num den : Nat} {e : Int} {q : ℚ} (hden : 0 < den) (hq : (num / den : ℚ) = q / 2 ^ e)
    (hfull : -1074 < e → 2 ^ 52 * den ≤ num) : RoundsTo (roundDiv num den) e q := by
  obtain ⟨hbelow, habove, hodd⟩ := roundDiv_spec num hden
  generalize roundDiv num den = m at *
  have hone : m % 2 = 1 → den ≤ m * den := fun hm => Nat.le_mul_of_pos_left den (by omega)
  have hlow : lowEnd m e * den ≤ 4 * num ∧ (m % 2 = 1 → lowEnd m e * den < 4 * num) := by
    unfold lowEnd
    split
    next h =>
      have := hfull h.2
      rw [h.1, Nat.sub_mul]
      omega
    next =>
      rw [Nat.sub_mul, Nat.mul_assoc]
      omega
  have hhigh : (4 * m + 2) * den = 4 * (m * den) + 2 * den := by rw [Nat.add_mul, Nat.mul_assoc]
  refine roundsTo_of_scaled hden hq hlow.1 (by omega) fun hm => ⟨hlow.2 hm, ?_⟩
  have := hodd hm
  omega

/-- Where a quotient is rounded up to `2 ^ 53`, its mantissa is half of that, with the next exponent. -/
theorem roundsTo_carried {num den : Nat} {e : Int} {q : ℚ} (hden : 0 < den) (hq : (num / den : ℚ) = q / 2 ^ e)
    (he : -1074 ≤ e) (hlt : num < 2 ^ 53 * den) (hround : roundDiv num den = 2 ^ 53) :
    RoundsTo (2 ^ 52) (e + 1) q := by
  obtain ⟨hbelow, -, -⟩ := roundDiv_spec num hden
  rw [hround] at hbelow
  have hq' : (num / (2 * den : ℕ) : ℚ) = q / 2 ^ (e + 1) := by
    rw [zpow_add_one₀ (by norm_num), Nat.cast_mul, ← div_div, ← div_div, div_right_comm, hq]
    rfl
  have hlow : lowEnd (2 ^ 52) (e + 1) = 2 ^ 54 - 1 := if_pos ⟨rfl, by omega⟩
  refine roundsTo_of_scaled (by omega) hq' ?_ (by omega) (by omega)
  rw [hlow]
  omega

/-- A fraction counted in steps of `2 ^ (k - 1074)`, with 53 binary digits in front of the point, or fewer if the
step is the least. -/
structure Scaled (q : ℚ) (k num den : Nat) : Prop where
  pos : 0 < den
  quotient : (num / den : ℚ) = q / 2 ^ (k - 1074 : ℤ)
  lt : num < 2 ^ 53 * den
  full : 0 < k → 2 ^ 52 * den ≤ num

section

variable {q : ℚ} {k num den : Nat}

theorem Scaled.eq (h : Scaled q k num den) : q = num / den * 2 ^ (k - 1074 : ℤ) := by
  rw [h.quotient, div_mul_cancel₀]
  positivity

theorem Scaled.roundDiv_le (h : Scaled q k num den) : roundDiv num den ≤ 2 ^ 53 := by
  have hlt := h.lt
  have hpos := h.pos
  by_contra hgt
  have hmul : (2 ^ 53 + 1) * den ≤ roundDiv num den * den := Nat.mul_le_mul_right den (by omega)
  have := (roundDiv_spec num hpos).1
  omega

theorem Scaled.le_roundDiv (h : Scaled q k num den) (hk : 0 < k) : 2 ^ 52 ≤ roundDiv num den := by
  have hfull := h.full hk
  have hpos := h.pos
  by_contra hlt
  have hmul : roundDiv num den * den ≤ (2 ^ 52 - 1) * den := Nat.mul_le_mul_right den (by omega)
  have := (roundDiv_spec num hpos).2.1
  omega

theorem midpoint_le : (2 ^ 53 - 1 / 2) * 2 ^ 971 ≤ (2 : ℚ) ^ 1024 :=
  calc (2 ^ 53 - 1 / 2 : ℚ) * 2 ^ 971
    _ ≤ 2 ^ 53 * 2 ^ 971 := mul_le_mul_of_nonneg_right (by norm_num) (by positivity)
    _ = 2 ^ 1024 := (pow_add 2 53 971).symm

/-- What is rounded up beyond the bits of all numbers is not nearer to the largest number than to the step beyond
it. -/
theorem Scaled.overflow (h : Scaled q k num den) (hbits : infinityBits ≤ k * 2 ^ 52 + roundDiv num den) :
    (2 ^ 53 - 1 / 2) * 2 ^ 971 ≤ q := by
  have hmax : 2047 * 2 ^ 52 ≤ k * 2 ^ 52 + roundDiv num den := hbits
  have hle := h.roundDiv_le
  have hpos : (0 : ℚ) < den := by exact_mod_cast h.pos
  rw [h.eq]
  by_cases hk : k = 2045
  · subst hk
    have hround : roundDiv num den = 2 ^ 53 := by omega
    have hspec := (roundDiv_spec num h.pos).1
    rw [hround] at hspec
    have hspec : (2 * (2 ^ 53 * den) : ℚ) ≤ 2 * num + den := by exact_mod_cast hspec
    have hquotient : (2 ^ 53 - 1 / 2 : ℚ) ≤ num / den := by
      rw [le_div_iff₀ hpos]
      linarith
    exact mul_le_mul_of_nonneg_right hquotient (by positivity)
  · have hquotient : (2 ^ 52 : ℚ) ≤ num / den := by
      rw [le_div_iff₀ hpos]
      exact_mod_cast h.full (by omega)
    have hpower : (2 : ℚ) ^ (972 : ℤ) ≤ 2 ^ (k - 1074 : ℤ) := zpow_le_zpow_right₀ (by norm_num) (by omega)
    calc (2 ^ 53 - 1 / 2 : ℚ) * 2 ^ 971
      _ ≤ 2 ^ 1024 := midpoint_le
      _ = 2 ^ 52 * 2 ^ (972 : ℤ) := pow_add 2 52 972
      _ ≤ num / den * 2 ^ (k - 1074 : ℤ) := mul_le_mul hquotient hpower (by positivity) (by positivity)

end

/-- The bits of a fraction are those of its exponent and of the rounded quotient, unless they are beyond all
numbers. -/
theorem ratioBits_scaled {num den : Nat} (hnum : 0 < num) (hden : 0 < den) :
    ∃ k n d, Scaled (num / den) k n d ∧
      (k * 2 ^ 52 + roundDiv n d < infinityBits ∧ ratioBits num den = k * 2 ^ 52 + roundDiv n d ∨
        infinityBits ≤ k * 2 ^ 52 + roundDiv n d ∧ ratioBits num den = infinityBits) := by
  obtain ⟨hleast, hlt, hfull⟩ := exponentFor_spec hnum hden
  rw [ratioBits, if_neg hnum.ne']
  extract_lets e
  obtain ⟨k, hk⟩ : ∃ k : ℕ, (e + 1074).toNat = k := ⟨_, rfl⟩
  have he : e = k - 1074 := by
    have : -1074 ≤ e := hleast
    omega
  refine ⟨k, num * (scaling e).2, den * (scaling e).1, ⟨scaled_pos hden e, ?_, ?_, fun hpos => ?_⟩, ?_⟩
  · rw [scaled_quotient, he]
  · have := (scaled_lt_iff num hden e (2 ^ 53)).mpr (by exact_mod_cast hlt)
    rwa [Nat.mul_comm (2 ^ 53)]
  · have hnot := mt (scaled_lt_iff num hden e (2 ^ 52)).mp (by
      rw [not_lt]
      exact_mod_cast hfull (show -1074 < e by omega))
    rw [Nat.mul_comm]
    exact not_lt.mp hnot
  · cases hs : scaling e with
    | mk up down =>
      rw [← hk]
      rcases Nat.lt_or_ge ((e + 1074).toNat * 2 ^ 52 + roundDiv (num * down) (den * up)) infinityBits with h | h
      · exact .inl ⟨h, Nat.min_eq_right h.le⟩
      · exact .inr ⟨h, Nat.min_eq_left h⟩

/-- The number nearest to a value of the given sign and size: of two numbers equally near the one with the even
mantissa, and an infinity for what is not nearer to the largest number than to the step beyond it. -/
def Nearest (negative : Bool) (q : ℚ) (x : Float) : Prop :=
  match view x with
  | .finite sign m e => sign = negative ∧ RoundsTo m e q
  | .infinite sign => sign = negative ∧ (2 ^ 53 - 1 / 2) * 2 ^ 971 ≤ q
  | .nan => False

theorem view_nan : view nan = .nan := by
  decide +kernel

theorem view_infinity (negative : Bool) : view (infinity negative) = .infinite negative := by
  cases negative <;> decide +kernel

theorem nearest_infinity (negative : Bool) {q : ℚ} (h : (2 ^ 53 - 1 / 2) * 2 ^ 971 ≤ q) :
    Nearest negative q (infinity negative) := by
  rw [Nearest, view_infinity]
  exact ⟨rfl, h⟩

/-- The bits that are put together of an exponent and a mantissa stand for them. -/
theorem nearest_ofBits (negative : Bool) {k m : Nat} {q : ℚ} (hm : m < 2 ^ 53) (hfull : 0 < k → 2 ^ 52 ≤ m)
    (hbits : k * 2 ^ 52 + m < infinityBits) (h : RoundsTo m (k - 1074) q) :
    Nearest negative q (ofBits negative (k * 2 ^ 52 + m)) := by
  have hview : view (ofBits negative (k * 2 ^ 52 + m)) = .finite negative m (k - 1074) := by
    rw [view_ofBits negative hbits]
    split
    next hzero =>
      rw [View.finite.injEq]
      exact ⟨rfl, by omega, by omega⟩
    next hnonzero =>
      rw [View.finite.injEq]
      exact ⟨rfl, by omega, by omega⟩
  rw [Nearest, hview]
  exact ⟨rfl, h⟩

/-- What is less than half of the least number is nearest to zero. -/
theorem nearest_zero (negative : Bool) {q : ℚ} (hq : 0 ≤ q) (h : q ≤ 2 ^ (-1075 : ℤ)) :
    Nearest negative q (ofBits negative 0) := by
  refine nearest_ofBits negative (k := 0) (m := 0) (by decide) nofun (by decide) ⟨?_, ?_⟩
  · simpa [lowEnd] using hq
  · refine h.trans_eq ?_
    rw [show (-1075 : ℤ) = 1 + (((0 : ℕ) : ℤ) - 1074 - 2) by norm_num, zpow_add₀ (by norm_num)]
    norm_num only

/-- A fraction gives the number nearest to it. -/
theorem nearest_ofRatio (negative : Bool) (num : Nat) {den : Nat} (hden : 0 < den) :
    Nearest negative (num / den) (ofRatio negative num den) := by
  rcases Nat.eq_zero_or_pos num with rfl | hnum
  · rw [Nat.cast_zero, zero_div]
    exact nearest_zero negative le_rfl (by positivity)
  obtain ⟨k, n, d, hscaled, hbits⟩ := ratioBits_scaled hnum hden
  rw [ofRatio]
  rcases hbits with ⟨hlt, hbits⟩ | ⟨hge, hbits⟩
  · rw [hbits]
    by_cases hcarry : roundDiv n d = 2 ^ 53
    · -- The mantissa carries into the exponent.
      have hsplit : k * 2 ^ 52 + roundDiv n d = (k + 1) * 2 ^ 52 + 2 ^ 52 := by omega
      rw [hsplit] at hlt ⊢
      refine nearest_ofBits negative (by decide) (fun _ => le_rfl) hlt ?_
      have := roundsTo_carried hscaled.pos hscaled.quotient (by omega) hscaled.lt hcarry
      rwa [show ((k + 1 : ℕ) : ℤ) - 1074 = k - 1074 + 1 by omega]
    · have hle := hscaled.roundDiv_le
      refine nearest_ofBits negative (by omega) hscaled.le_roundDiv hlt ?_
      exact roundsTo_roundDiv hscaled.pos hscaled.quotient fun hk => hscaled.full (by omega)
  · rw [hbits]
    exact nearest_infinity negative (hscaled.overflow hge)

/-- A whole number that converts gives the number nearest to it. -/
theorem nearest_ofInt? {n : Int} {x : Float} (h : ofInt? n = some x) : Nearest (n < 0) n.natAbs x := by
  have hnearest := nearest_ofRatio (n < 0) n.natAbs Nat.one_pos
  rw [Nat.cast_one, div_one] at hnearest
  simp only [ofInt?] at h
  split at h
  · cases h
    exact hnearest
  · cases h

/-! ## Decimals -/

/-- A decimal gives the number nearest to it, also where its size alone decides. -/
theorem nearest_ofDecimal (negative : Bool) (mantissa : Nat) (exponent : Int) :
    Nearest negative (mantissa * 10 ^ exponent) (ofDecimal negative mantissa exponent) := by
  rcases Nat.eq_zero_or_pos mantissa with rfl | hpos
  · rw [Nat.cast_zero, zero_mul, ofDecimal, if_pos (.inl rfl)]
    exact nearest_zero negative le_rfl (by positivity)
  have hpowers : 2 ^ 1075 ≤ 10 ^ 330 := by decide +kernel
  have hten : (0 : ℚ) < 10 ^ exponent := by positivity
  have hlength : 0 < (digits mantissa).length := Nat.length_toDigits_pos
  have hlow : (10 : ℚ) ^ ((digits mantissa).length + exponent - 1) ≤ mantissa * 10 ^ exponent := by
    rw [show ((digits mantissa).length + exponent - 1 : ℤ) = ((digits mantissa).length - 1 : ℕ) + exponent by omega,
      zpow_add₀ (by norm_num), zpow_natCast]
    refine mul_le_mul_of_nonneg_right ?_ hten.le
    exact_mod_cast pow_digits_le hpos
  have hhigh : mantissa * 10 ^ exponent < (10 : ℚ) ^ ((digits mantissa).length + exponent) := by
    rw [zpow_add₀ (by norm_num), zpow_natCast]
    refine mul_lt_mul_of_pos_right ?_ hten
    exact_mod_cast lt_pow_digits mantissa
  unfold ofDecimal
  dsimp only
  split
  next hsmall =>
    obtain h | hsize := hsmall
    · omega
    refine nearest_zero negative (by positivity) (hhigh.le.trans ?_)
    calc (10 : ℚ) ^ ((digits mantissa).length + exponent)
      _ ≤ 10 ^ (-330 : ℤ) := zpow_le_zpow_right₀ (by norm_num) (by omega)
      _ ≤ 2 ^ (-1075 : ℤ) := by
        rw [zpow_neg, zpow_neg]
        exact inv_anti₀ (by positivity) (by exact_mod_cast hpowers)
  split
  next hlarge =>
    refine nearest_infinity negative (le_trans ?_ hlow)
    calc (2 ^ 53 - 1 / 2) * 2 ^ 971
      _ ≤ (2 : ℚ) ^ 1024 := midpoint_le
      _ ≤ 2 ^ 1075 := pow_le_pow_right₀ (by norm_num) (by decide)
      _ ≤ (10 : ℚ) ^ (330 : ℤ) := by exact_mod_cast hpowers
      _ ≤ 10 ^ ((digits mantissa).length + exponent - 1) := zpow_le_zpow_right₀ (by norm_num) (by omega)
  split
  next hexponent =>
    obtain ⟨n, rfl⟩ := Int.eq_ofNat_of_zero_le hexponent
    have := nearest_ofRatio negative (mantissa * 10 ^ n) Nat.one_pos
    rw [Nat.cast_one, div_one, Nat.cast_mul, Nat.cast_pow] at this
    rw [zpow_natCast]
    exact this
  next hexponent =>
    obtain ⟨n, rfl⟩ : ∃ n : ℕ, exponent = -n := ⟨(-exponent).toNat, by omega⟩
    have := nearest_ofRatio negative mantissa (Nat.pow_pos (n := n) (by decide : 0 < 10))
    rw [zpow_neg, zpow_natCast, ← div_eq_mul_inv]
    rw [neg_neg, Int.toNat_natCast]
    rw [Nat.cast_pow] at this
    exact this

/-- The text of a decimal is read as the number nearest to what it spells. -/
theorem nearest_readFloat? {cs : List Char} {q : ℚ} (h : Spells cs q) :
    ∃ x, readFloat? (String.ofList cs) = some x ∧ Nearest false q x := by
  obtain ⟨whole, fraction, exponent, rfl, hnumber, rfl⟩ := h
  exact ⟨_, hnumber.readFloat?, nearest_ofDecimal ..⟩

/-! ## Numbers that are read back -/

theorem exponent_le_of_view {x : Float} {negative : Bool} {m : Nat} {e : Int} (h : view x = .finite negative m e) :
    e ≤ 971 := by
  have hlt : x.toBits.toNat < 2 ^ 64 := x.toBits.toNat_lt
  rw [view_eq] at h
  split at h
  · split at h <;> cases h
  · split at h
    · cases h
      omega
    · cases h
      omega

/-- What rounds to a number is nearer to the largest number than to the step beyond it. -/
theorem RoundsTo.lt_midpoint {m : Nat} {e : Int} {q : ℚ} (hm : IsMantissa m e) (he : e ≤ 971) (h : RoundsTo m e q) :
    q < (2 ^ 53 - 1 / 2) * 2 ^ 971 := by
  have hunit : (0 : ℚ) < 2 ^ (e - 2) := by positivity
  have hlt : m < 2 ^ 53 := hm.lt
  have hend : q < (2 ^ 55 - 2 : ℕ) * 2 ^ (e - 2) := by
    by_cases heven : m % 2 = 0
    · refine lt_of_le_of_lt h.le.2 (mul_lt_mul_of_pos_right ?_ hunit)
      exact_mod_cast (by omega : 4 * m + 2 < 2 ^ 55 - 2)
    · rw [RoundsTo, Between, if_neg (by simpa using heven)] at h
      refine lt_of_lt_of_le h.2 (mul_le_mul_of_nonneg_right ?_ hunit.le)
      exact_mod_cast (by omega : 4 * m + 2 ≤ 2 ^ 55 - 2)
  calc q
    _ < (2 ^ 55 - 2 : ℕ) * 2 ^ (e - 2) := hend
    _ ≤ (2 ^ 55 - 2 : ℕ) * 2 ^ (969 : ℤ) :=
      mul_le_mul_of_nonneg_left (zpow_le_zpow_right₀ (by norm_num) (by omega)) (by positivity)
    _ = (2 ^ 53 - 1 / 2) * 2 ^ 971 := by
      rw [show (2 : ℚ) ^ 971 = 2 ^ 2 * 2 ^ (969 : ℤ) from pow_add 2 2 969, ← mul_assoc]
      norm_num only

/-- There is one number nearest to a value. -/
theorem Nearest.unique {negative : Bool} {q : ℚ} {x y : Float} (hx : Nearest negative q x)
    (hy : Nearest negative q y) : x = y := by
  unfold Nearest at hx hy
  refine view_inj ?_
  cases hvx : view x with
  | nan => simp [hvx] at hx
  | infinite sign =>
    rw [hvx] at hx
    cases hvy : view y with
    | nan => simp [hvy] at hy
    | infinite sign' =>
      rw [hvy] at hy
      rw [hx.1, hy.1]
    | finite sign' m' e' =>
      rw [hvy] at hy
      have hlt := hy.2.lt_midpoint (isMantissa_view hvy) (exponent_le_of_view hvy)
      exact absurd hx.2 (not_le.mpr hlt)
  | finite sign m e =>
    rw [hvx] at hx
    cases hvy : view y with
    | nan => simp [hvy] at hy
    | infinite sign' =>
      rw [hvy] at hy
      have hlt := hx.2.lt_midpoint (isMantissa_view hvx) (exponent_le_of_view hvx)
      exact absurd hy.2 (not_le.mpr hlt)
    | finite sign' m' e' =>
      rw [hvy] at hy
      obtain ⟨rfl, rfl⟩ := roundsTo_unique (isMantissa_view hvx) (isMantissa_view hvy) hx.2 hy.2
      rw [hx.1, hy.1]

/-- What is printed of a number is read as the number. -/
theorem readFloat?_showFloat (x : Float) : readFloat? (showFloat x) = some x := by
  have hsplit := splitSign_showFloat x
  cases hx : view x with
  | nan =>
    have hshow : showFloat x = "nan" := by rw [showFloat, hx]
    rw [hshow, view_inj (hx.trans view_nan.symm)]
    rfl
  | infinite negative =>
    have hshow : showFloat x = if negative then "-inf" else "inf" := by rw [showFloat, hx]
    rw [hshow, view_inj (hx.trans (view_infinity negative).symm)]
    cases negative <;> rfl
  | finite negative m e =>
    rw [hx] at hsplit
    obtain ⟨q, ⟨whole, fraction, exponent, hcs, hnumber, hvalue⟩, hrounds⟩ := spells_magnitude (isMantissa_view hx)
    have hsign : splitSign (showFloat x).toList = (negative, whole ++ fraction ++ exponent) :=
      hsplit.trans (congrArg (Prod.mk negative) hcs)
    have hblank : ∀ c ∈ (showFloat x).toList, isNumeralBlank c = false := by
      refine forall_of_splitSign (by decide) (by decide) ?_
      rw [hsign]
      exact hnumber.not_isNumeralBlank
    have hread := hnumber.readFloat?_signed hblank hsign
    have hnearest : Nearest negative q x := by
      rw [Nearest, hx]
      exact ⟨rfl, hrounds⟩
    have hnearest' := nearest_ofDecimal negative (Nat.ofDigitChars 10 (whole ++ fraction.drop 1) 0)
      (exponentValue exponent - (fraction.drop 1).length)
    rw [← hvalue] at hnearest
    rw [← String.ofList_toList (s := showFloat x), hread, hnearest'.unique hnearest]

/-- Numbers are the same if they are printed the same. -/
theorem showFloat_inj {x y : Float} : showFloat x = showFloat y ↔ x = y := by
  refine ⟨fun h => Option.some_inj.mp ?_, congrArg showFloat⟩
  rw [← readFloat?_showFloat x, h, readFloat?_showFloat]

end Camlet.Number

namespace Camlet

/-- A lexed decimal is read as the number nearest to what it spells. -/
theorem Lexed.readFloat? {t : Token} (h : Lexed t) (hk : t.kind = .float) :
    ∃ q x, Number.Spells t.lexeme.toList q ∧ Number.readFloat? t.lexeme = some x ∧ Number.Nearest false q x := by
  obtain ⟨whole, fraction, exponent, hnumber, hlexeme⟩ := h.isNumber hk
  have hspells : Number.Spells t.lexeme.toList (Number.partsValue whole fraction exponent) :=
    ⟨whole, fraction, exponent, by rw [hlexeme, String.toList_ofList], hnumber, rfl⟩
  obtain ⟨x, hread, hnearest⟩ := Number.nearest_readFloat? hspells
  rw [String.ofList_toList] at hread
  exact ⟨_, x, hspells, hread, hnearest⟩

end Camlet
