import Camlet.Proofs.Rounding
import Camlet.Proofs.Spelling

/-
  What is printed of a number. The decimal that is printed rounds to the number: one is found in the interval
  of what does, with 17 digits at the latest. Its text spells it, with a point or with an exponent.
-/

namespace Camlet.Number

/-! ## Neighbours on a decimal grid -/

/-- A power as the quotient of two whole numbers. -/
theorem power_quotient (b : Nat) (hb : 0 < b) (e : Int) :
    let p : Nat × Nat := if 0 ≤ e then (Nat.pow b e.toNat, 1) else (1, Nat.pow b (-e).toNat)
    (p.1 : ℚ) / p.2 = b ^ e ∧ 0 < p.1 ∧ 0 < p.2 := by
  dsimp only
  split
  next he =>
    refine ⟨?_, Nat.pow_pos hb, Nat.one_pos⟩
    obtain ⟨n, rfl⟩ := Int.eq_ofNat_of_zero_le he
    simp
  next he =>
    refine ⟨?_, Nat.one_pos, Nat.pow_pos hb⟩
    obtain ⟨n, rfl⟩ : ∃ n : ℕ, e = -n := ⟨(-e).toNat, by omega⟩
    simp

theorem scaling_quotient (e : Int) :
    ((scaling e).1 : ℚ) / (scaling e).2 = 2 ^ e ∧ 0 < (scaling e).1 ∧ 0 < (scaling e).2 :=
  power_quotient 2 (by decide) e

theorem tens_quotient (e : Int) : ((tens e).1 : ℚ) / (tens e).2 = 10 ^ e ∧ 0 < (tens e).1 ∧ 0 < (tens e).2 :=
  power_quotient 10 (by decide) e

section

variable {num low high den : Nat} {closed : Bool} {unit : Int}

/-- Whether a multiple of `10 ^ unit` lies between the ends. -/
def inside (low high den : Nat) (closed : Bool) (unit : Int) (k : Nat) : Bool :=
  if closed then low * (tens unit).2 ≤ k * (den * (tens unit).1) && k * (den * (tens unit).1) ≤ high * (tens unit).2
  else low * (tens unit).2 < k * (den * (tens unit).1) && k * (den * (tens unit).1) < high * (tens unit).2

theorem neighbour?_eq : neighbour? num low high den closed unit =
    let k := num * (tens unit).2 / (den * (tens unit).1)
    match inside low high den closed unit k, inside low high den closed unit (k + 1) with
    | true, true =>
      let below := num * (tens unit).2 - k * (den * (tens unit).1)
      let above := (k + 1) * (den * (tens unit).1) - num * (tens unit).2
      some (if below < above ∨ (below = above ∧ k % 2 = 0) then k else k + 1)
    | true, false => some k
    | false, true => some (k + 1)
    | false, false => none := rfl

theorem grid_le (hden : 0 < den) (a k : Nat) :
    (k : ℚ) * 10 ^ unit ≤ a / den ↔ k * (den * (tens unit).1) ≤ a * (tens unit).2 := by
  obtain ⟨hten, -, hdown⟩ := tens_quotient unit
  rw [← hten, ← mul_div_assoc, div_le_div_iff₀ (by exact_mod_cast hdown) (by exact_mod_cast hden),
    ← Nat.cast_le (α := ℚ)]
  push_cast
  rw [mul_assoc, mul_comm (den : ℚ)]

theorem le_grid (hden : 0 < den) (a k : Nat) :
    (a : ℚ) / den ≤ k * 10 ^ unit ↔ a * (tens unit).2 ≤ k * (den * (tens unit).1) := by
  obtain ⟨hten, -, hdown⟩ := tens_quotient unit
  rw [← hten, ← mul_div_assoc, div_le_div_iff₀ (by exact_mod_cast hden) (by exact_mod_cast hdown),
    ← Nat.cast_le (α := ℚ)]
  push_cast
  rw [mul_assoc, mul_comm (den : ℚ)]

theorem inside_iff (hden : 0 < den) (k : Nat) :
    inside low high den closed unit k = true ↔ Between closed (low / den) (high / den) (k * 10 ^ unit) := by
  unfold inside Between
  cases closed with
  | true => simp only [if_true, Bool.and_eq_true, decide_eq_true_eq, grid_le hden, le_grid hden]
  | false =>
    simp only [Bool.false_eq_true, if_false, Bool.and_eq_true, decide_eq_true_eq, ← not_le, grid_le hden, le_grid hden]

/-- The neighbour that is found lies between the ends. -/
theorem neighbour?_between {k : Nat} (hden : 0 < den) (h : neighbour? num low high den closed unit = some k) :
    Between closed (low / den) (high / den) (k * 10 ^ unit) := by
  rw [neighbour?_eq] at h
  dsimp only at h
  split at h
  next hk hk' =>
    split at h <;> cases h
    · exact (inside_iff hden _).mp hk
    · exact (inside_iff hden _).mp hk'
  next hk _ =>
    cases h
    exact (inside_iff hden _).mp hk
  next _ hk =>
    cases h
    exact (inside_iff hden _).mp hk
  next => cases h

/-- A neighbour is found if the ends are further away than half a step of the grid. -/
theorem neighbour?_ne_none (hden : 0 < den) (hlow : (low : ℚ) / den < num / den - 10 ^ unit / 2)
    (hhigh : (num : ℚ) / den + 10 ^ unit / 2 < high / den) : neighbour? num low high den closed unit ≠ none := by
  obtain ⟨-, hup, -⟩ := tens_quotient unit
  have hunit : (0 : ℚ) < 10 ^ unit := by positivity
  let k := num * (tens unit).2 / (den * (tens unit).1)
  have hfloor : (k : ℚ) * 10 ^ unit ≤ num / den := (grid_le hden num k).mpr (Nat.div_mul_le_self _ _)
  have hceiling : (num : ℚ) / den < (k + 1 : ℕ) * 10 ^ unit := by
    refine lt_of_not_ge fun h => ?_
    have hle := (Nat.le_div_iff_mul_le (Nat.mul_pos hden hup)).mpr ((grid_le hden num (k + 1)).mp h)
    exact absurd hle (Nat.not_succ_le_self k)
  have hsucc : ((k + 1 : ℕ) : ℚ) * 10 ^ unit = k * 10 ^ unit + 10 ^ unit := by
    push_cast
    ring
  -- The nearer of the two neighbours is half a step away at most.
  have hinside : inside low high den closed unit k = true ∨ inside low high den closed unit (k + 1) = true := by
    rw [inside_iff hden, inside_iff hden]
    rcases le_or_gt ((num : ℚ) / den - k * 10 ^ unit) (10 ^ unit / 2) with hnear | hfar
    · exact .inl (between_of_lt (by linarith) (by linarith))
    · exact .inr (between_of_lt (by linarith) (by linarith))
  intro h
  rw [neighbour?_eq] at h
  dsimp only at h
  split at h
  · cases h
  · cases h
  · cases h
  next hk hk' =>
    rcases hinside with hin | hin
    · exact absurd (hk.symm.trans hin) (by decide)
    · exact absurd (hk'.symm.trans hin) (by decide)

end

/-! ## The shortest decimal -/

theorem lt_pow_digits (n : Nat) : n < 10 ^ (digits n).length :=
  (Nat.length_toDigits_le_iff (by decide) Nat.length_toDigits_pos).mp (Nat.le_refl _)

theorem pow_digits_le {n : Nat} (hn : 0 < n) : 10 ^ ((digits n).length - 1) ≤ n := by
  by_contra h
  have hlength : 0 < (digits n).length := Nat.length_toDigits_pos
  by_cases hone : (digits n).length = 1
  · rw [hone] at h
    omega
  · have hle := (Nat.length_toDigits_le_iff (b := 10) (n := n) (k := (digits n).length - 1) (by decide) (by omega)).mpr
      (Nat.lt_of_not_le h)
    have : (digits n).length ≤ (digits n).length - 1 := hle
    omega

/-- A quotient has a digit at its leading power. -/
theorem leadingPower_le {num den : Nat} (hnum : 0 < num) (hden : 0 < den) :
    (10 : ℚ) ^ leadingPower num den ≤ num / den := by
  have hden' : (0 : ℚ) < den := by exact_mod_cast hden
  rw [le_div_iff₀ hden']
  unfold leadingPower
  split
  next hle =>
    have hquotient := pow_digits_le (Nat.div_pos hle hden)
    have hlength : 0 < (digits (num / den)).length := Nat.length_toDigits_pos
    have hexponent : ((digits (num / den)).length : Int) - 1 = ((digits (num / den)).length - 1 : ℕ) := by omega
    rw [hexponent, zpow_natCast]
    calc (10 : ℚ) ^ ((digits (num / den)).length - 1) * den
      _ ≤ (num / den : ℕ) * den := by
        refine mul_le_mul_of_nonneg_right ?_ hden'.le
        exact_mod_cast hquotient
      _ ≤ num := by exact_mod_cast Nat.div_mul_le_self num den
  next hlt =>
    have hlength : 0 < (digits (den / num)).length := Nat.length_toDigits_pos
    have hinverse : ∀ n : ℕ, den ≤ num * 10 ^ n → (10 : ℚ) ^ (-(n : Int)) * den ≤ num := by
      intro n hn
      rw [zpow_neg, zpow_natCast, inv_mul_le_iff₀ (by positivity), mul_comm]
      exact_mod_cast hn
    dsimp only
    split
    next h =>
      have hexponent : -(((digits (den / num)).length : Int) - 1) = -((digits (den / num)).length - 1 : ℕ) := by omega
      rw [hexponent]
      exact hinverse _ h
    next h =>
      refine hinverse _ ?_
      rw [Nat.mul_comm]
      exact ((Nat.div_lt_iff_lt_mul hnum).mp (lt_pow_digits (den / num))).le

/-- What a decimal stands for. -/
def Scientific.value (s : Scientific) : ℚ :=
  Nat.ofDigitChars 10 s.digits 0 * 10 ^ (s.exponent - s.digits.length + 1)

/-- Digits, at least one. -/
structure Scientific.IsDecimal (s : Scientific) : Prop where
  digits : ∀ c ∈ s.digits, Text.isDigit c = true
  nonempty : s.digits ≠ []

/-- Digits without the zeros at their end. -/
def stripped (ds : List Char) : List Char := (ds.reverse.dropWhile (· == '0')).reverse

theorem stripped_append (ds : List Char) : ∃ j, ds = stripped ds ++ List.replicate j '0' := by
  refine ⟨(ds.reverse.takeWhile (· == '0')).length, ?_⟩
  have hzeros : ds.reverse.takeWhile (· == '0') =
      List.replicate (ds.reverse.takeWhile (· == '0')).length '0' := by
    refine List.eq_replicate_iff.mpr ⟨rfl, fun c hc => ?_⟩
    exact beq_iff_eq.mp (List.mem_takeWhile_imp (p := fun c => c == '0') hc)
  have hreverse := congrArg List.reverse (List.takeWhile_append_dropWhile (p := (· == '0')) (l := ds.reverse))
  rw [List.reverse_append, List.reverse_reverse, hzeros, List.reverse_replicate] at hreverse
  exact hreverse.symm

theorem ofDigitChars_stripped {k j : Nat} (hj : digits k = stripped (digits k) ++ List.replicate j '0') :
    k = 10 ^ j * Nat.ofDigitChars 10 (stripped (digits k)) 0 := by
  have hvalue := ofDigitChars_digits k
  rw [hj, Nat.ofDigitChars_append, Nat.ofDigitChars_replicate_zero] at hvalue
  exact hvalue.symm

theorem scientific_value (k : Nat) (unit : Int) : (scientific k unit).value = k * 10 ^ unit := by
  obtain ⟨j, hj⟩ := stripped_append (digits k)
  have hlength := congrArg List.length hj
  rw [List.length_append, List.length_replicate] at hlength
  have hexponent : unit + (digits k).length - 1 - (stripped (digits k)).length + 1 = unit + (j : ℕ) := by omega
  calc (Nat.ofDigitChars 10 (stripped (digits k)) 0 : ℚ) *
        10 ^ (unit + (digits k).length - 1 - (stripped (digits k)).length + 1)
    _ = (10 ^ j * Nat.ofDigitChars 10 (stripped (digits k)) 0 : ℕ) * 10 ^ unit := by
      rw [hexponent, zpow_add₀ (by norm_num), zpow_natCast]
      push_cast
      ring
    _ = k * 10 ^ unit := by rw [← ofDigitChars_stripped hj]

theorem scientific_isDecimal {k : Nat} (hk : 0 < k) (unit : Int) : (scientific k unit).IsDecimal := by
  obtain ⟨j, hj⟩ := stripped_append (digits k)
  refine ⟨fun c hc => ?_, fun hnil => ?_⟩
  · have hmem : c ∈ digits k := hj ▸ List.mem_append_left _ hc
    exact toDigits_isDigit hmem
  · have hzero := ofDigitChars_stripped hj
    rw [show stripped (digits k) = [] from hnil, Nat.ofDigitChars_nil, Nat.mul_zero] at hzero
    omega

/-- The neighbour of `m · 2 ^ e` of `n + 1` digits that is tried, and the power of ten that it counts. -/
def candidate (m : Nat) (e : Int) (n : Nat) : Option (Nat × Int) :=
  let num := 4 * m * (scaling (e - 2)).1
  let den := (scaling (e - 2)).2
  (neighbour? num (lowEnd m e * (scaling (e - 2)).1) ((4 * m + 2) * (scaling (e - 2)).1) den (m % 2 == 0)
    (leadingPower num den - n)).map fun k => (k, leadingPower num den - n)

theorem shortest_eq (m : Nat) (e : Int) :
    shortest m e =
      match (List.range 17).findSome? (candidate m e) with
      | some (k, unit) => scientific k unit
      | none => scientific (roundDiv (4 * m * (scaling (e - 2)).1) (scaling (e - 2)).2) 0 := rfl

section

variable {m : Nat} {e : Int}

/-- Quarters of `2 ^ e` as they are computed with. -/
theorem quarters_quotient (a : Nat) (e : Int) :
    ((a * (scaling (e - 2)).1 : ℕ) : ℚ) / (scaling (e - 2)).2 = a * 2 ^ (e - 2) := by
  rw [Nat.cast_mul, mul_div_assoc, (scaling_quotient (e - 2)).1]

/-- A number that is tried and found rounds to the one that is written. -/
theorem candidate_roundsTo {n k : Nat} {unit : Int} (h : candidate m e n = some (k, unit)) :
    RoundsTo m e (k * 10 ^ unit) := by
  obtain ⟨k', hk, heq⟩ := Option.map_eq_some_iff.mp h
  cases heq
  have hbetween := neighbour?_between (scaling_quotient (e - 2)).2.2 hk
  rwa [quarters_quotient, quarters_quotient] at hbetween

/-- One of 17 digits is found: a step of their grid is less than a `10 ^ 16`th of the number, and both ends are
further away than half of that. -/
theorem candidate_ne_none (hm : IsMantissa m e) (hpos : 0 < m) : candidate m e 16 ≠ none := by
  obtain ⟨-, hup, hden⟩ := scaling_quotient (e - 2)
  have hu : (0 : ℚ) < 2 ^ (e - 2) := by positivity
  have hmax : (m : ℚ) * 2 ^ (e - 2) ≤ 2 ^ 53 * 2 ^ (e - 2) :=
    mul_le_mul_of_nonneg_right (by exact_mod_cast hm.lt.le) hu.le
  have hstep : (10 : ℚ) ^ (leadingPower (4 * m * (scaling (e - 2)).1) (scaling (e - 2)).2 - (16 : ℕ)) * 10 ^ 16 ≤
      4 * (m * 2 ^ (e - 2)) := by
    have hpower := leadingPower_le (Nat.mul_pos (Nat.mul_pos (by decide : 0 < 4) hpos) hup) hden
    rw [quarters_quotient] at hpower
    rw [zpow_sub₀ (by norm_num), zpow_natCast, div_mul_cancel₀ _ (by norm_num)]
    push_cast at hpower
    linarith
  intro hnone
  refine neighbour?_ne_none hden ?_ ?_ (Option.map_eq_none_iff.mp hnone)
  · rw [quarters_quotient, quarters_quotient]
    unfold lowEnd
    split
    next h =>
      -- At a power of two the lower end is a quarter away only, but the mantissa is known.
      rw [h.1] at hstep ⊢
      push_cast [show 1 ≤ 4 * 2 ^ 52 by decide] at hstep ⊢
      linarith
    next h =>
      push_cast [show 2 ≤ 4 * m by omega] at hstep ⊢
      linarith
  · rw [quarters_quotient, quarters_quotient]
    push_cast at hstep ⊢
    linarith

end

/-- Nothing but positive numbers rounds to one. -/
theorem RoundsTo.pos {m : Nat} {e : Int} {q : ℚ} (h : RoundsTo m e q) (hpos : 0 < m) : 0 < q := by
  have hlow : 0 < lowEnd m e := Nat.lt_of_lt_of_le (by omega) (le_lowEnd m e)
  calc (0 : ℚ)
    _ < lowEnd m e * 2 ^ (e - 2) := by positivity
    _ ≤ q := h.le.1

/-- Written in the shortest way, a number rounds to itself. -/
theorem roundsTo_shortest {m : Nat} {e : Int} (hm : IsMantissa m e) (hpos : 0 < m) :
    RoundsTo m e (shortest m e).value ∧ (shortest m e).IsDecimal := by
  rw [shortest_eq]
  split
  next k unit hfound =>
    obtain ⟨n, -, hn⟩ := List.exists_of_findSome?_eq_some hfound
    have hrounds : RoundsTo m e (k * 10 ^ unit) := candidate_roundsTo hn
    have hk : 0 < k := by
      refine Nat.pos_of_ne_zero fun hzero => ?_
      have hvalue := hrounds.pos hpos
      rw [hzero, Nat.cast_zero, zero_mul] at hvalue
      exact lt_irrefl 0 hvalue
    rw [scientific_value]
    exact ⟨hrounds, scientific_isDecimal hk unit⟩
  next hnone =>
    have hlast := List.findSome?_eq_none_iff.mp hnone 16 (List.mem_range.mpr (by decide))
    exact absurd hlast (candidate_ne_none hm hpos)

/-! ## The texts of decimals -/

/-- What a decimal stands for: its digits, moved by those behind the point and by the exponent. -/
def partsValue (whole fraction exponent : List Char) : ℚ :=
  Nat.ofDigitChars 10 (whole ++ fraction.drop 1) 0 * 10 ^ (exponentValue exponent - (fraction.drop 1).length)

/-- The text is that of a decimal that stands for the value. -/
def Spells (cs : List Char) (q : ℚ) : Prop :=
  ∃ whole fraction exponent, cs = whole ++ fraction ++ exponent ∧ IsNumber whole fraction exponent ∧
    partsValue whole fraction exponent = q

theorem ofDigitChars_zeros (n : Nat) (ds : List Char) :
    Nat.ofDigitChars 10 (List.replicate n '0' ++ ds) 0 = Nat.ofDigitChars 10 ds 0 := by
  rw [Nat.ofDigitChars_append, Nat.ofDigitChars_replicate_zero, Nat.mul_zero]

theorem isDigit_zeros {n : Nat} : ∀ c ∈ List.replicate n '0', Text.isDigit c = true := by
  intro c hc
  rw [List.eq_of_mem_replicate hc]
  rfl

variable {s : Scientific}

theorem isDigit_zero : ∀ c ∈ ['0'], Text.isDigit c = true := List.forall_mem_singleton.mpr rfl

theorem isFraction_zero : IsFraction ['.', '0'] := .inr ⟨['0'], rfl, by simp, isDigit_zero⟩

/-- Below one, the digits are written behind zeros. -/
theorem spells_small (hs : s.IsDecimal) {n : Nat} (hn : s.exponent = -(n + 1 : ℕ)) :
    Spells ('0' :: '.' :: List.replicate n '0' ++ s.digits) s.value := by
  have hfraction : IsFraction ('.' :: (List.replicate n '0' ++ s.digits)) := by
    refine .inr ⟨_, rfl, fun h => ?_, List.forall_mem_append.mpr ⟨isDigit_zeros, hs.digits⟩⟩
    exact hs.nonempty (List.append_eq_nil_iff.mp h).2
  have hdigits := ofDigitChars_zeros (n + 1) s.digits
  rw [List.replicate_succ, List.cons_append] at hdigits
  have hpower : 0 - ((List.replicate n '0' ++ s.digits).length : Int) = s.exponent - s.digits.length + 1 := by
    rw [hn, List.length_append, List.length_replicate]
    omega
  refine ⟨['0'], '.' :: (List.replicate n '0' ++ s.digits), [], by simp,
    ⟨by simp, isDigit_zero, hfraction, .inl rfl⟩, ?_⟩
  show (Nat.ofDigitChars 10 ('0' :: (List.replicate n '0' ++ s.digits)) 0 : ℚ) *
    10 ^ (0 - ((List.replicate n '0' ++ s.digits).length : Int)) = s.value
  rw [hdigits, hpower, Scientific.value]

/-- From one on, the point is written behind the digit that counts ones. -/
theorem spells_plain (hs : s.IsDecimal) {n : Nat} (hn : s.exponent = n) :
    Spells (s.digits.take (n + 1) ++ List.replicate (n + 1 - s.digits.length) '0' ++
      '.' :: (if (s.digits.drop (n + 1)).isEmpty then ['0'] else s.digits.drop (n + 1))) s.value := by
  have hwhole : s.digits.take (n + 1) ≠ [] := by
    intro h
    exact hs.nonempty ((List.take_eq_nil_iff.mp h).resolve_left (Nat.succ_ne_zero n))
  have htake : ∀ c ∈ s.digits.take (n + 1), Text.isDigit c = true :=
    fun c hc => hs.digits c (List.mem_of_mem_take hc)
  by_cases hlength : s.digits.length ≤ n + 1
  · have hdrop : s.digits.drop (n + 1) = [] := List.drop_eq_nil_iff.mpr hlength
    rw [hdrop, List.take_of_length_le hlength]
    refine ⟨s.digits ++ List.replicate (n + 1 - s.digits.length) '0', ['.', '0'], [], by simp,
      ⟨?_, List.forall_mem_append.mpr ⟨hs.digits, isDigit_zeros⟩, isFraction_zero, .inl rfl⟩, ?_⟩
    · exact fun h => hs.nonempty (List.append_eq_nil_iff.mp h).1
    · have hdigits : Nat.ofDigitChars 10 (s.digits ++ List.replicate (n + 1 - s.digits.length) '0' ++ ['0']) 0 =
          10 ^ (n + 1 - s.digits.length + 1) * Nat.ofDigitChars 10 s.digits 0 := by
        rw [List.append_assoc, ← List.replicate_succ', Nat.ofDigitChars_append, Nat.ofDigitChars_replicate_zero]
      have hpower : s.exponent - s.digits.length + 1 = (n + 1 - s.digits.length + 1 : ℕ) + -1 := by omega
      show (Nat.ofDigitChars 10 (s.digits ++ List.replicate (n + 1 - s.digits.length) '0' ++ ['0']) 0 : ℚ) *
        10 ^ (-1 : Int) = s.value
      rw [hdigits, Scientific.value, hpower, zpow_add₀ (by norm_num), zpow_natCast]
      push_cast
      ring
  · have hdrop : s.digits.drop (n + 1) ≠ [] := fun h => hlength (List.drop_eq_nil_iff.mp h)
    have hzeros : n + 1 - s.digits.length = 0 := by omega
    rw [hzeros, List.replicate_zero, List.append_nil, List.isEmpty_eq_false_iff.mpr hdrop, if_neg Bool.false_ne_true]
    refine ⟨s.digits.take (n + 1), '.' :: s.digits.drop (n + 1), [], by simp,
      ⟨hwhole, htake, .inr ⟨_, rfl, hdrop, fun c hc => hs.digits c (List.mem_of_mem_drop hc)⟩, .inl rfl⟩, ?_⟩
    have hpower : 0 - ((s.digits.drop (n + 1)).length : Int) = s.exponent - s.digits.length + 1 := by
      rw [List.length_drop]
      omega
    show (Nat.ofDigitChars 10 (s.digits.take (n + 1) ++ s.digits.drop (n + 1)) 0 : ℚ) *
      10 ^ (0 - ((s.digits.drop (n + 1)).length : Int)) = s.value
    rw [List.take_append_drop, hpower, Scientific.value]

theorem ofDigitChars_padded (width n : Nat) : Nat.ofDigitChars 10 (padded width (digits n)) 0 = n := by
  rw [padded, ofDigitChars_zeros, ofDigitChars_digits]

/-- A power of ten as it is written. -/
def exponentText (e : Int) : List Char :=
  'e' :: (if e < 0 then '-' else '+') :: padded printed.exponentWidth (digits e.natAbs)

theorem exponentValue_exponentText (e : Int) : exponentValue (exponentText e) = e := by
  unfold exponentText
  split
  next hlt =>
    show -(Nat.ofDigitChars 10 (padded printed.exponentWidth (digits e.natAbs)) 0 : Int) = e
    rw [ofDigitChars_padded]
    omega
  next hge =>
    show (Nat.ofDigitChars 10 (padded printed.exponentWidth (digits e.natAbs)) 0 : Int) = e
    rw [ofDigitChars_padded]
    omega

theorem isExponent_exponentText (e : Int) : IsExponent (exponentText e) := by
  refine .inr ⟨'e', [if e < 0 then '-' else '+'], padded printed.exponentWidth (digits e.natAbs), rfl, .inl rfl,
    ?_, ?_, ?_⟩
  · split
    · exact .inr (.inr rfl)
    · exact .inr (.inl rfl)
  · exact fun h => Nat.toDigits_ne_nil (List.append_eq_nil_iff.mp h).2
  · exact List.forall_mem_append.mpr ⟨isDigit_zeros, fun c hc => toDigits_isDigit hc⟩

/-- Far from one, the power of ten at the leading digit is written as an exponent. -/
theorem spells_exponent (hs : s.IsDecimal) :
    Spells (s.digits.take 1 ++ (if (s.digits.drop 1).isEmpty then [] else '.' :: s.digits.drop 1) ++
      exponentText s.exponent) s.value := by
  obtain ⟨d, ds, hds⟩ := List.exists_cons_of_ne_nil hs.nonempty
  have hdigits := hs.digits
  rw [hds] at hdigits ⊢
  have hd : ∀ c ∈ [d], Text.isDigit c = true := List.forall_mem_singleton.mpr (hdigits d (List.mem_cons_self ..))
  refine ⟨[d], if ds.isEmpty then [] else '.' :: ds, exponentText s.exponent, rfl,
    ⟨by simp, hd, ?_, isExponent_exponentText s.exponent⟩, ?_⟩
  · cases ds with
    | nil => exact .inl rfl
    | cons d' ds => exact .inr ⟨d' :: ds, rfl, by simp, fun c hc => hdigits c (List.mem_cons_of_mem _ hc)⟩
  · have hfraction : (if ds.isEmpty then [] else '.' :: ds).drop 1 = ds := by cases ds <;> rfl
    have hpower : s.exponent - (ds.length : Int) = s.exponent - s.digits.length + 1 := by
      rw [hds, List.length_cons]
      omega
    rw [partsValue, exponentValue_exponentText, hfraction, hpower, Scientific.value, hds]
    rfl

theorem spells_layout (hs : s.IsDecimal) : Spells (printed.layout s) s.value := by
  unfold DecimalStyle.layout
  split
  · split
    next hlt => exact spells_small hs (by omega)
    next hge => exact spells_plain hs (by omega)
  · exact spells_exponent hs

/-! ## Numbers as they are printed -/

/-- The text of a number without its sign. -/
def magnitude (m : Nat) (e : Int) : List Char :=
  if m = 0 then ['0', '.', '0'] else printed.layout (shortest m e)

/-- A number rounds to itself as it is printed. -/
theorem spells_magnitude {m : Nat} {e : Int} (hm : IsMantissa m e) :
    ∃ q, Spells (magnitude m e) q ∧ RoundsTo m e q := by
  unfold magnitude
  split
  next hzero =>
    refine ⟨0, ⟨['0'], ['.', '0'], [], rfl, ⟨by simp, isDigit_zero, isFraction_zero, .inl rfl⟩, ?_⟩, ?_⟩
    · have hdigits : Nat.ofDigitChars 10 (['0'] ++ ['.', '0'].drop 1) 0 = 0 := rfl
      rw [partsValue, hdigits, Nat.cast_zero, zero_mul]
    · have hlow : lowEnd 0 e = 0 := rfl
      rw [hzero, RoundsTo, hlow]
      exact ⟨by simp, by positivity⟩
  next hpos =>
    obtain ⟨hrounds, hdecimal⟩ := roundsTo_shortest hm (Nat.pos_of_ne_zero hpos)
    exact ⟨_, spells_layout hdecimal, hrounds⟩

theorem head_magnitude {m : Nat} {e : Int} (hm : IsMantissa m e) :
    ∃ d ds, magnitude m e = d :: ds ∧ Text.isDigit d = true := by
  obtain ⟨q, ⟨whole, fraction, exponent, hcs, hnumber, -⟩, -⟩ := spells_magnitude hm
  obtain ⟨d, ds, rfl⟩ := List.exists_cons_of_ne_nil hnumber.nonempty
  exact ⟨d, ds ++ fraction ++ exponent, hcs, hnumber.whole d (List.mem_cons_self ..)⟩

/-- Whether a sign is printed. -/
def View.negative : View → Bool
  | .nan => false
  | .infinite negative => negative
  | .finite negative _ _ => negative

/-- What is printed behind the sign. -/
def View.unsigned : View → List Char
  | .nan => ['n', 'a', 'n']
  | .infinite _ => ['i', 'n', 'f']
  | .finite _ m e => magnitude m e

theorem splitSign_showFloat (x : Float) : splitSign (showFloat x).toList = ((view x).negative, (view x).unsigned) := by
  unfold showFloat
  split
  next h => rw [h]; rfl
  next negative h =>
    rw [h]
    cases negative <;> rfl
  next negative m e h =>
    rw [h, String.toList_ofList]
    cases negative with
    | true => rfl
    | false =>
      obtain ⟨d, ds, hdigit, hd⟩ := head_magnitude (isMantissa_view h)
      show splitSign (magnitude m e) = (false, magnitude m e)
      rw [hdigit, splitSign_digit hd]

/-! ## Whole numbers as they are printed -/

theorem splitSign_writeInt (n : Int) : splitSign (writeInt n).toList = (decide (n < 0), digits n.natAbs) := by
  rw [writeInt, String.toList_ofList]
  split
  next hlt =>
    rw [decide_eq_true hlt]
    rfl
  next hge =>
    obtain ⟨d, ds, hcons⟩ := List.exists_cons_of_ne_nil (Nat.toDigits_ne_nil (b := 10) (n := n.natAbs))
    have hd : Text.isDigit d = true := toDigits_isDigit (hcons ▸ List.mem_cons_self ..)
    rw [decide_eq_false hge, digits, hcons, splitSign_digit hd]

/-- Whole numbers are the same if they are printed the same. -/
theorem writeInt_inj {m n : Int} : writeInt m = writeInt n ↔ m = n := by
  refine ⟨fun h => ?_, congrArg writeInt⟩
  have hsplit := splitSign_writeInt m
  rw [h, splitSign_writeInt] at hsplit
  obtain ⟨hsign, hdigits⟩ := Prod.mk.inj hsplit
  have habs : n.natAbs = m.natAbs := digits_inj.mp hdigits
  have hnegative : n < 0 ↔ m < 0 := decide_eq_decide.mp hsign
  omega

end Camlet.Number
