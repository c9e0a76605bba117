import Mathlib
import Camlet.Evaluation.Arithmetic

/-
  Floating-point numbers and their bits. A number that is put together from the bits of a finite number has
  these bits again, so that a whole number that converts gives a finite number, and a number other than
  zero one with a mantissa. From this follows when a remainder has no value.
-/

namespace Camlet

open Float.Model Float.Model.UnpackedFloat

/-! ## The bits of a number -/

theorem packComponents_toNat (s : Sign) (e : BitVec 11) (m : BitVec 52) :
    (packComponents Format.binary64 s e m).toNat =
      s.toBitVec.toNat * 2 ^ 63 + e.toNat * 2 ^ 52 + m.toNat := by
  have he := e.isLt
  have hm := m.isLt
  rw [packComponents, BitVec.toNat_append, BitVec.toNat_append, ← Nat.shiftLeft_add_eq_or_of_lt he,
    ← Nat.shiftLeft_add_eq_or_of_lt hm, Nat.shiftLeft_eq, Nat.shiftLeft_eq]
  omega

theorem toBitVec_ofBitVec (b : BitVec 1) : (Sign.ofBitVec b).toBitVec = b := by
  revert b
  decide

section

variable (b : BitVec 64)

theorem unpackMantissa_toNat : (@unpackMantissa Format.binary64 b).toNat = b.toNat % 2 ^ 52 := by
  simp [unpackMantissa, Format.binary64]

theorem unpackExponent_toNat : (@unpackExponent Format.binary64 b).toNat = b.toNat / 2 ^ 52 % 2 ^ 11 := by
  simp [unpackExponent, Format.binary64, Nat.shiftRight_eq_div_pow]

theorem unpackSign_toNat : (@unpackSign Format.binary64 b).toNat = b.toNat / 2 ^ 63 := by
  have := b.isLt
  simp only [unpackSign, Format.binary64, BitVec.toNat_cast, BitVec.extractLsb_toNat,
    Nat.shiftRight_eq_div_pow]
  omega

/-- Bits are put together again from their parts. -/
theorem packComponents_unpack :
    packComponents Format.binary64 (Sign.ofBitVec (@unpackSign Format.binary64 b))
      (@unpackExponent Format.binary64 b) (@unpackMantissa Format.binary64 b) = b := by
  apply BitVec.eq_of_toNat_eq
  rw [packComponents_toNat, toBitVec_ofBitVec, unpackSign_toNat, unpackExponent_toNat, unpackMantissa_toNat]
  omega

end

theorem eq_of_toBits {x y : Float} (h : x.toBits = y.toBits) : x = y := by
  obtain ⟨⟨u, hu⟩⟩ := x
  obtain ⟨⟨v, hv⟩⟩ := y
  obtain rfl : u = v := h
  rfl

theorem pack_subnormal (s : Sign) {m : Nat} (hpos : 0 < m) (hm : m < 2 ^ 52) :
    UnpackedFloat.pack Format.binary64 (finite s m (-1074) hpos) =
      packComponents Format.binary64 s 0#11 (BitVec.ofNat 52 m) := by
  have hlog : m.log2 < 52 := (Nat.log2_lt (Nat.ne_of_gt hpos)).mpr hm
  have hmantissa : ¬ m.log2 + 1 = Format.binary64.mantissaBits := by
    simp only [Format.mantissaBits]
    omega
  simp only [UnpackedFloat.pack]
  rw [if_neg (by decide), if_neg hmantissa]

theorem pack_normal (s : Sign) {m e : Nat} (hpos : 0 < m) (hlow : 2 ^ 52 ≤ m) (hm : m < 2 ^ 53)
    (he : e < 2047) :
    UnpackedFloat.pack Format.binary64 (finite s m ((e : Int) - 1075) hpos) =
      packComponents Format.binary64 s (BitVec.ofNat 11 e) (BitVec.ofNat 52 m) := by
  have hlog : m.log2 = 52 := (Nat.log2_eq_iff (Nat.ne_of_gt hpos)).mpr ⟨hlow, hm⟩
  have hbias : ((e : Int) - 1075 + Format.binary64.exponentBias + (52 : Nat)).toNat = e := by
    have : Format.binary64.exponentBias = 1023 := rfl
    omega
  simp only [UnpackedFloat.pack]
  rw [hlog, hbias, if_neg (show ¬ 2 ^ 11 ≤ e + 1 by omega)]
  exact if_pos rfl

/-- The bits of a number that is not infinite, and is a number, are kept. -/
theorem pack_unpack (b : BitVec 64) (h : @unpackExponent Format.binary64 b ≠ -1#11) :
    UnpackedFloat.pack Format.binary64 (UnpackedFloat.unpack Format.binary64 b) = b := by
  have hb := packComponents_unpack b
  have he : (@unpackExponent Format.binary64 b).toNat < 2 ^ 11 := (@unpackExponent Format.binary64 b).isLt
  have hm : (@unpackMantissa Format.binary64 b).toNat < 2 ^ 52 := (@unpackMantissa Format.binary64 b).isLt
  simp only [UnpackedFloat.unpack]
  rw [if_neg h]
  by_cases hzero : @unpackExponent Format.binary64 b = 0#11
  · rw [if_pos hzero]
    by_cases hmantissa : @unpackMantissa Format.binary64 b = 0#52
    · rw [hzero, hmantissa] at hb
      rw [dif_pos hmantissa]
      exact hb
    · rw [dif_neg hmantissa, hzero]
      have hpos : 0 < (@unpackMantissa Format.binary64 b).toNat := by
        rw [Nat.pos_iff_ne_zero]
        exact fun h => hmantissa (BitVec.eq_of_toNat_eq h)
      have hpack := pack_subnormal (Sign.ofBitVec (@unpackSign Format.binary64 b)) hpos hm
      rw [BitVec.ofNat_toNat, BitVec.setWidth_eq, ← hzero, hb] at hpack
      exact hpack
  · rw [if_neg hzero]
    have hsum : (1#1 ++ @unpackMantissa Format.binary64 b).toNat =
        2 ^ 52 + (@unpackMantissa Format.binary64 b).toNat := by
      rw [BitVec.toNat_append, ← Nat.shiftLeft_add_eq_or_of_lt hm]
      rfl
    have hexponent : (@unpackExponent Format.binary64 b).toNat < 2047 := by
      refine Nat.lt_of_le_of_ne (Nat.le_of_lt_succ he) fun heq => h ?_
      exact BitVec.eq_of_toNat_eq heq
    have hmantissa : BitVec.ofNat 52 (1#1 ++ @unpackMantissa Format.binary64 b).toNat =
        @unpackMantissa Format.binary64 b := by
      apply BitVec.eq_of_toNat_eq
      rw [BitVec.toNat_ofNat, hsum]
      omega
    have hlow : 2 ^ 52 ≤ (1#1 ++ @unpackMantissa Format.binary64 b).toNat := by
      rw [hsum]
      omega
    have hhigh : (1#1 ++ @unpackMantissa Format.binary64 b).toNat < 2 ^ 53 := by
      rw [hsum]
      omega
    have hpack := pack_normal (Sign.ofBitVec (@unpackSign Format.binary64 b))
      (Nat.lt_of_lt_of_le (by decide) hlow) hlow hhigh hexponent
    rw [BitVec.ofNat_toNat, BitVec.setWidth_eq, hmantissa, hb] at hpack
    exact hpack

theorem toBits_ofBits {u : UInt64} (h : u.toNat / 2 ^ 52 % 2 ^ 11 ≠ 2047) : (Float.ofBits u).toBits = u := by
  have hexponent : @unpackExponent Format.binary64 u.toBitVec ≠ -1#11 := by
    intro heq
    have := unpackExponent_toNat u.toBitVec
    rw [heq] at this
    exact h this.symm
  exact congrArg UInt64.ofBitVec (pack_unpack u.toBitVec hexponent)

/-! ## What a number stands for -/

namespace Number

theorem view_eq (x : Float) :
    view x =
      if x.toBits.toNat / 2 ^ 52 % 2 ^ 11 = 2047 then
        if x.toBits.toNat % 2 ^ 52 = 0 then .infinite (x.toBits.toNat / 2 ^ 63 == 1) else .nan
      else if x.toBits.toNat / 2 ^ 52 % 2 ^ 11 = 0 then
        .finite (x.toBits.toNat / 2 ^ 63 == 1) (x.toBits.toNat % 2 ^ 52) (-1074)
      else .finite (x.toBits.toNat / 2 ^ 63 == 1) (2 ^ 52 + x.toBits.toNat % 2 ^ 52)
        ((x.toBits.toNat / 2 ^ 52 % 2 ^ 11 : Nat) - 1075) := rfl

/-- The number of the given bits, which are less than those of infinity, is finite. -/
theorem view_ofBits (negative : Bool) {bits : Nat} (h : bits < infinityBits) :
    view (ofBits negative bits) =
      if bits / 2 ^ 52 = 0 then .finite negative (bits % 2 ^ 52) (-1074)
      else .finite negative (2 ^ 52 + bits % 2 ^ 52) ((bits / 2 ^ 52 : Nat) - 1075) := by
  have hlt : bits < 2047 * 2 ^ 52 := h
  obtain ⟨u, hu, hbits⟩ : ∃ u : UInt64, ofBits negative bits = Float.ofBits u ∧
      u.toNat = if negative then 2 ^ 63 + bits else bits := by
    refine ⟨_, rfl, ?_⟩
    rw [UInt64.toNat_ofNat']
    cases negative
    · exact Nat.mod_eq_of_lt (by simp; omega)
    · exact Nat.mod_eq_of_lt (by simp; omega)
  obtain ⟨hexponent, hmantissa, hsign⟩ : u.toNat / 2 ^ 52 % 2 ^ 11 = bits / 2 ^ 52 ∧
      u.toNat % 2 ^ 52 = bits % 2 ^ 52 ∧ (u.toNat / 2 ^ 63 == 1) = negative := by
    cases negative with
    | false =>
      rw [if_neg Bool.false_ne_true] at hbits
      exact ⟨by omega, by omega, beq_false_of_ne (by omega)⟩
    | true =>
      rw [if_pos rfl] at hbits
      exact ⟨by omega, by omega, beq_iff_eq.mpr (by omega)⟩
  have hfinite : bits / 2 ^ 52 ≠ 2047 := by omega
  rw [hu, view_eq, toBits_ofBits (hexponent ▸ hfinite), hexponent, hmantissa, hsign, if_neg hfinite]

/-- It has a mantissa unless its bits are zero. -/
theorem exists_view_ofBits (negative : Bool) {bits : Nat} (h : bits < infinityBits) :
    ∃ m e, view (ofBits negative bits) = .finite negative m e ∧ (bits ≠ 0 → m ≠ 0) := by
  rw [view_ofBits negative h]
  split
  · exact ⟨_, _, rfl, by omega⟩
  · exact ⟨_, _, rfl, fun _ => by omega⟩

/-- The bits of a whole number other than zero are those of a number with a mantissa. -/
theorem ratioBits_ne_zero {n : Nat} (hn : n ≠ 0) : ratioBits n 1 ≠ 0 := by
  have hexponent : -53 ≤ exponentFor n 1 := by
    have hlog : (1 : Nat).log2 = 0 := by decide
    simp only [exponentFor, hlog]
    split <;> omega
  have hone : 0 < Nat.pow 2 52 := Nat.two_pow_pos 52
  have hinf : 0 < infinityBits := Nat.mul_pos (by decide) hone
  have hpos : 0 < (exponentFor n 1 + 1074).toNat * Nat.pow 2 52 := Nat.mul_pos (by omega) hone
  rw [ratioBits, if_neg hn]
  extract_lets e
  cases hs : scaling e with
  | mk up down => exact Nat.ne_of_gt (Nat.lt_min.mpr ⟨hinf, Nat.add_pos_left hpos _⟩)

/-- A whole number that converts gives a finite number, which has a mantissa unless it is zero. -/
theorem view_ofInt? {n : Int} {x : Float} (h : ofInt? n = some x) :
    ∃ negative m e, view x = .finite negative m e ∧ (n ≠ 0 → m ≠ 0) := by
  simp only [ofInt?] at h
  split at h
  next hlt =>
    cases h
    obtain ⟨m, e, hview, hm⟩ := exists_view_ofBits (n < 0) hlt
    refine ⟨_, m, e, hview, fun hn => hm (ratioBits_ne_zero ?_)⟩
    exact fun h => hn (Int.natAbs_eq_zero.mp h)
  next => cases h

/-- A number without a mantissa is zero. -/
theorem view_zero {x : Float} {negative : Bool} {e : Int} (h : view x = .finite negative 0 e) :
    (x == 0.0) = true := by
  have hbits : x.toBits.toNat / 2 ^ 52 % 2 ^ 11 = 0 ∧ x.toBits.toNat % 2 ^ 52 = 0 := by
    rw [view_eq] at h
    split at h
    · split at h <;> cases h
    · split at h
      next hscale => exact ⟨hscale, (View.finite.inj h).2.1⟩
      next => exact absurd (View.finite.inj h).2.1 (by omega)
  have hlt := x.toBits.toNat_lt
  have hzero : x = Float.ofBits 0 ∨ x = Float.ofBits 0x8000000000000000 := by
    rcases (show x.toBits.toNat = 0 ∨ x.toBits.toNat = 2 ^ 63 by omega) with h | h
    · exact .inl (eq_of_toBits ((UInt64.toNat_inj.mp h).trans (toBits_ofBits (by decide)).symm))
    · exact .inr (eq_of_toBits ((UInt64.toNat_inj.mp h).trans (toBits_ofBits (by decide)).symm))
  rcases hzero with rfl | rfl <;> decide

end Number

/-! ## Operations without a result -/

namespace Num

/-- An infinity. -/
def IsInfinite : Num → Prop
  | int _ => False
  | float x => ∃ negative, Number.view x = .infinite negative

/-- The value that is not a number. -/
def IsNaN : Num → Prop
  | int _ => False
  | float x => Number.view x = .nan

/-- A number that floating point has, rounded if need be. -/
def Converts (a : Num) : Prop := ∃ x, a.toFloat = .ok x

variable {a b : Num} {f : NumFault}

theorem toFloat_error (h : a.toFloat = .error f) : f = .tooLarge := by
  cases a with
  | float x => cases h
  | int n =>
    simp only [toFloat] at h
    split at h <;> cases h
    rfl

theorem floating_error {op : Float → Float → Float} (h : floating op a b = .error f) : f = .tooLarge := by
  simp only [floating] at h
  cases ha : a.toFloat with
  | error g =>
    rw [ha] at h
    cases h
    exact toFloat_error ha
  | ok x =>
    cases hb : b.toFloat with
    | error g =>
      rw [ha, hb] at h
      cases h
      exact toFloat_error hb
    | ok y =>
      rw [ha, hb] at h
      cases h

theorem mixed_error {whole : Int → Int → Int} {op : Float → Float → Float}
    (h : mixed whole op a b = .error f) : f = .tooLarge := by
  cases a <;> cases b <;> first | cases h | exact floating_error h

theorem converts_int_left {n : Int} {x : Float} (h : (int n).toFloat = .ok x) :
    ∃ negative m e, Number.view x = .finite negative m e ∧ (n ≠ 0 → m ≠ 0) := by
  simp only [toFloat] at h
  split at h
  next hx =>
    cases h
    exact Number.view_ofInt? hx
  next => cases h

/-- The second number of a remainder, in floating point, has a mantissa if it is finite. -/
theorem mantissa_ne_zero (hb : b.isZero = false) {y : Float} (hy : b.toFloat = .ok y) {negative : Bool}
    {m : Nat} {e : Int} (hview : Number.view y = .finite negative m e) : m ≠ 0 := by
  rintro rfl
  cases b with
  | float x =>
    cases hy
    rw [isZero, Number.view_zero hview] at hb
    cases hb
  | int n =>
    obtain ⟨_, m, _, hview', hm⟩ := converts_int_left hy
    rw [hview] at hview'
    cases hview'
    exact hm (by simpa [isZero] using hb) rfl

theorem remainder?_eq_none {x y : Float} (hy : ∀ negative m e, Number.view y = .finite negative m e → m ≠ 0) :
    Number.remainder? x y = none ↔
      (∃ negative, Number.view x = .infinite negative) ∧ Number.view y ≠ .nan := by
  unfold Number.remainder?
  cases hx : Number.view x with
  | nan => simp
  | infinite negative => cases hview : Number.view y <;> simp
  | finite negative m e =>
    cases hview : Number.view y with
    | nan | infinite => simp
    | finite negative' m' e' => simp [hy _ _ _ hview]

theorem isInfinite_iff {x : Float} (h : a.toFloat = .ok x) :
    a.IsInfinite ↔ ∃ negative, Number.view x = .infinite negative := by
  cases a with
  | float y => cases h; rfl
  | int n =>
    obtain ⟨_, _, _, hview, -⟩ := converts_int_left h
    simp [IsInfinite, hview]

theorem isNaN_iff {x : Float} (h : a.toFloat = .ok x) : a.IsNaN ↔ Number.view x = .nan := by
  cases a with
  | float y => cases h; rfl
  | int n =>
    obtain ⟨_, _, _, hview, -⟩ := converts_int_left h
    simp [IsNaN, hview]

/-- Unless both numbers are whole, the remainder is that of floating point. -/
theorem remainder_floating (h : ¬ ∃ m n, a = int m ∧ b = int n) :
    (∀ f, a.toFloat = .error f → remainder a b = .error f) ∧
    (∀ x f, a.toFloat = .ok x → b.toFloat = .error f → remainder a b = .error f) ∧
    ∀ x y, a.toFloat = .ok x → b.toFloat = .ok y →
      (remainder a b = .error .noRemainder ↔ Number.remainder? x y = none) := by
  cases a <;> cases b
  · exact absurd ⟨_, _, rfl, rfl⟩ h
  all_goals
    refine ⟨fun f ha => ?_, fun x f ha hb => ?_, fun x y ha hb => ?_⟩
    · simp only [remainder, ha]
      rfl
    · simp only [remainder, ha, hb]
      rfl
    · simp only [remainder, ha, hb, bind, Except.bind]
      cases Number.remainder? x y <;> simp [pure, Except.pure]

/-- A remainder has no value exactly for an infinity and a number that is not zero but can be converted. -/
theorem remainder_eq_error (hb : b.isZero = false) :
    remainder a b = .error .noRemainder ↔ a.IsInfinite ∧ ¬ b.IsNaN ∧ b.Converts := by
  by_cases hint : ∃ m n, a = int m ∧ b = int n
  · obtain ⟨m, n, rfl, rfl⟩ := hint
    simp [remainder, IsInfinite]
  obtain ⟨hleft, hright, hboth⟩ := remainder_floating hint
  cases hx : a.toFloat with
  | error f =>
    cases toFloat_error hx
    rw [hleft _ hx]
    cases a with
    | float x => cases hx
    | int n => simp [IsInfinite]
  | ok x =>
    cases hy : b.toFloat with
    | error f =>
      cases toFloat_error hy
      simp [hright _ _ hx hy, Converts, hy]
    | ok y =>
      have hconverts : b.Converts := ⟨y, hy⟩
      have hmantissa : ∀ negative m e, Number.view y = .finite negative m e → m ≠ 0 :=
        fun _ _ _ => mantissa_ne_zero hb hy
      rw [hboth x y hx hy, remainder?_eq_none hmantissa, isInfinite_iff hx, isNaN_iff hy,
        and_iff_left hconverts]

/-- No operation but a remainder is without a value in this way. -/
theorem operate_eq_error {o : String} (h : a.operate o b = .error .noRemainder) :
    o = "mod" ∧ b.isZero = false ∧ remainder a b = .error .noRemainder := by
  unfold operate at h
  split at h
  · cases h
  · split at h
    · cases mixed_error h
    · cases mixed_error h
    · cases mixed_error h
    · cases floating_error h
    · cases floating_error h
    · cases floating_error h
    · unfold divide at h
      split at h
      · cases h
      next hzero =>
        split at h
        · cases mixed_error h
        · cases floating_error h
        · exact ⟨rfl, by simpa using hzero, h⟩
        · cases h

/-- A remainder is an operation without a value exactly in this case. -/
theorem operate_mod_eq_error :
    a.operate "mod" b = .error .noRemainder ↔ a.IsInfinite ∧ b.isZero = false ∧ ¬ b.IsNaN ∧ b.Converts := by
  have hdivide : a.operate "mod" b = if b.isZero then .error .byZero else remainder a b := rfl
  rw [hdivide]
  cases hb : b.isZero with
  | true => simp
  | false => simpa using remainder_eq_error hb

end Num

end Camlet
