import ReversePolish.Proofs.Rounding

namespace ReversePolish.Number

open Float.Model.UnpackedFloat

/-- The number that a float is to float arithmetic, if it is finite. -/
def value? (x : Float) : Option ℚ :=
  match x.toModel.unpack with
  | .finite sign m e _ => some (sign.apply m * 2 ^ e)
  | .zero _ => some 0
  | .infinity _ | .notANumber => none

def signOf (negative : Bool) : Sign :=
  if negative then .negative else .positive

theorem apply_signOf (negative : Bool) (m : Nat) : (signOf negative).apply m = signed negative m := by
  cases negative <;> rfl

def Parts.unpacked : Parts → Float.Model.UnpackedFloat
  | .nan => .notANumber
  | .infinite negative => .infinity (signOf negative)
  | .finite negative m e =>
    if h : m = 0 then .zero (signOf negative) else .finite (signOf negative) m e (Nat.pos_of_ne_zero h)

section Fields

variable (x : Float)

theorem toNat_unpackExponent :
    (@unpackExponent .binary64 x.toBits.toBitVec).toNat = magnitude x / fractions := by
  rw [unpackExponent_def, BitVec.extractLsb'_toNat, Nat.shiftRight_eq_div_pow, magnitude]
  change x.toBits.toNat / 2 ^ 52 % 2 ^ 11 = _
  rw [signBit_eq, fractions_eq]
  omega

theorem toNat_unpackMantissa :
    (@unpackMantissa .binary64 x.toBits.toBitVec).toNat = magnitude x % fractions := by
  rw [unpackMantissa_def, BitVec.extractLsb'_toNat, Nat.shiftRight_zero, magnitude]
  change x.toBits.toNat % 2 ^ 52 = _
  rw [signBit_eq, fractions_eq]
  omega

theorem toNat_implicit (m : BitVec 52) : (1#1 ++ m).toNat = fractions + m.toNat := by
  rw [BitVec.toNat_append, ← Nat.shiftLeft_add_eq_or_of_lt m.isLt, Nat.shiftLeft_eq]
  rfl

theorem unpackExponent_eq_ones_iff :
    @unpackExponent .binary64 x.toBits.toBitVec = -1#11 ↔ magnitude x / fractions = 2047 := by
  rw [← BitVec.toNat_inj, toNat_unpackExponent]
  rfl

theorem unpackExponent_eq_zero_iff :
    @unpackExponent .binary64 x.toBits.toBitVec = 0#11 ↔ magnitude x / fractions = 0 := by
  rw [← BitVec.toNat_inj, toNat_unpackExponent]
  rfl

theorem unpackMantissa_eq_zero_iff :
    @unpackMantissa .binary64 x.toBits.toBitVec = 0#52 ↔ magnitude x % fractions = 0 := by
  rw [← BitVec.toNat_inj, toNat_unpackMantissa]
  rfl

theorem ofBitVec_unpackSign :
    Sign.ofBitVec (@unpackSign .binary64 x.toBits.toBitVec) = signOf (isNegative x) := by
  have hlt : x.toBits.toNat < 2 ^ 64 := x.toBits.toNat_lt
  have hsign : (@unpackSign .binary64 x.toBits.toBitVec).toNat = x.toBits.toNat / 2 ^ 63 % 2 := by
    rw [unpackSign_def, BitVec.extractLsb'_toNat, Nat.shiftRight_eq_div_pow]
    rfl
  rw [Sign.ofBitVec, isNegative, signBit_eq]
  by_cases h : 9223372036854775808 ≤ x.toBits.toNat
  · rw [if_neg, decide_eq_true h]
    · rfl
    · intro hzero
      rw [hzero, BitVec.toNat_zero] at hsign
      omega
  · rw [if_pos, decide_eq_false h]
    · rfl
    · apply BitVec.eq_of_toNat_eq
      rw [hsign, BitVec.toNat_zero]
      omega

end Fields

section Unpacked

variable {x : Float}

theorem unpack_of_lt (h : magnitude x < infinity) : x.toModel.unpack =
    (Parts.finite (isNegative x) (significand (magnitude x)) (exponent (magnitude x))).unpacked := by
  have hones : ¬ magnitude x / fractions = 2047 := by
    rw [infinity_eq] at h
    rw [fractions_eq]
    omega
  change Float.Model.UnpackedFloat.unpack .binary64 x.toBits.toBitVec = _
  simp only [Float.Model.UnpackedFloat.unpack, Parts.unpacked, ofBitVec_unpackSign]
  rw [if_neg (mt (unpackExponent_eq_ones_iff x).1 hones)]
  by_cases hzero : magnitude x / fractions = 0
  · have hlt : magnitude x < fractions := by
      rw [fractions_eq] at hzero ⊢
      omega
    have hexponent : exponent (magnitude x) = -1074 := by
      rw [exponent, hzero]
      rfl
    have hsignificand : significand (magnitude x) = magnitude x % fractions := by
      rw [significand, if_pos hlt, Nat.mod_eq_of_lt hlt]
    rw [if_pos ((unpackExponent_eq_zero_iff x).2 hzero)]
    simp only [hsignificand, hexponent]
    by_cases hmantissa : magnitude x % fractions = 0
    · rw [dif_pos ((unpackMantissa_eq_zero_iff x).2 hmantissa), dif_pos hmantissa]
    · rw [dif_neg (mt (unpackMantissa_eq_zero_iff x).1 hmantissa), dif_neg hmantissa]
      simp only [toNat_unpackMantissa, toNat_unpackExponent, hzero]
      rfl
  · have hge : ¬ magnitude x < fractions := by
      rw [fractions_eq] at hzero ⊢
      omega
    have hexponent : exponent (magnitude x) = (magnitude x / fractions : Nat) - 1075 := by
      rw [exponent, Nat.max_eq_right (Nat.pos_of_ne_zero hzero)]
    have hsignificand : significand (magnitude x) = fractions + magnitude x % fractions := by
      rw [significand, if_neg hge]
    have hne : significand (magnitude x) ≠ 0 := by
      rw [hsignificand, fractions_eq]
      omega
    rw [if_neg (mt (unpackExponent_eq_zero_iff x).1 hzero), dif_neg hne]
    simp only [toNat_implicit, toNat_unpackMantissa, toNat_unpackExponent, hexponent, hsignificand]
    rfl

theorem unpack_of_eq (h : magnitude x = infinity) :
    x.toModel.unpack = .infinity (signOf (isNegative x)) := by
  have hones : magnitude x / fractions = 2047 := by rw [h]; rfl
  have hzero : magnitude x % fractions = 0 := by rw [h]; rfl
  change Float.Model.UnpackedFloat.unpack .binary64 x.toBits.toBitVec = _
  rw [Float.Model.UnpackedFloat.unpack, ← ofBitVec_unpackSign]
  exact (if_pos ((unpackExponent_eq_ones_iff x).2 hones)).trans
    (if_pos ((unpackMantissa_eq_zero_iff x).2 hzero))

theorem unpack_of_gt (h : infinity < magnitude x) : x.toModel.unpack = .notANumber := by
  have hlt : magnitude x < signBit := Nat.mod_lt _ (by decide)
  rw [infinity_eq] at h
  rw [signBit_eq] at hlt
  have hones : magnitude x / fractions = 2047 := by
    rw [fractions_eq]
    omega
  have hzero : ¬ magnitude x % fractions = 0 := by
    rw [fractions_eq]
    omega
  change Float.Model.UnpackedFloat.unpack .binary64 x.toBits.toBitVec = _
  rw [Float.Model.UnpackedFloat.unpack]
  exact (if_pos ((unpackExponent_eq_ones_iff x).2 hones)).trans
    (if_neg (mt (unpackMantissa_eq_zero_iff x).1 hzero))

theorem unpack_eq (x : Float) : x.toModel.unpack = (parts x).unpacked := by
  simp only [parts]
  split
  · next hlt => exact unpack_of_lt hlt
  · next hlt =>
    split
    · next heq => exact unpack_of_eq heq
    · next heq => exact unpack_of_gt (Nat.lt_of_le_of_ne (not_lt.1 hlt) (Ne.symm heq))

theorem value?_eq (x : Float) : value? x =
    match parts x with
    | .finite negative m e => some ((signed negative m : ℚ) * 2 ^ e)
    | _ => none := by
  rw [value?, unpack_eq]
  cases parts x with
  | nan | infinite negative => rfl
  | finite negative m e =>
    by_cases hm : m = 0
    · simp [Parts.unpacked, hm, signed]
    · simp [Parts.unpacked, hm, apply_signOf]

theorem isNaN_iff : x.isNaN = true ↔ parts x = .nan := by
  change x.toModel.unpack.isNaN = true ↔ _
  rw [unpack_eq]
  cases parts x with
  | nan => exact iff_of_true rfl rfl
  | infinite negative => exact iff_of_false Bool.false_ne_true (by simp)
  | finite negative m e =>
    by_cases hm : m = 0
    · simp [Parts.unpacked, hm, Float.Model.UnpackedFloat.isNaN]
    · simp [Parts.unpacked, hm, Float.Model.UnpackedFloat.isNaN]

theorem value?_eq_none_iff : value? x = none ↔ x.isNaN = true ∨ x.isInf = true := by
  change _ ↔ x.toModel.unpack.isNaN = true ∨ x.toModel.unpack.isInf = true
  rw [value?]
  cases x.toModel.unpack with
  | notANumber => exact iff_of_true rfl (.inl rfl)
  | infinity sign => exact iff_of_true rfl (.inr rfl)
  | zero sign => exact iff_of_false (by simp) (by rintro (h | h) <;> cases h)
  | finite sign m e hm => exact iff_of_false (by simp) (by rintro (h | h) <;> cases h)

theorem isFinite_iff : x.isFinite = true ↔ ∃ q, value? x = some q := by
  change x.toModel.unpack.isFinite = true ↔ _
  rw [value?]
  cases x.toModel.unpack with
  | notANumber | infinity sign => exact iff_of_false Bool.false_ne_true (by simp)
  | zero sign => exact iff_of_true rfl ⟨_, rfl⟩
  | finite sign m e hm => exact iff_of_true rfl ⟨_, rfl⟩

end Unpacked

section Integers

variable {m n d : Nat} {e i : Int} {negative : Bool} {x : Float}

theorem signed_zero (negative : Bool) : signed negative 0 = 0 := by
  cases negative <;> rfl

theorem signed_eq_zero_iff : signed negative n = 0 ↔ n = 0 := by
  cases negative <;> simp [signed]

theorem signed_mul (negative : Bool) (m n : Nat) : signed negative (m * n) = signed negative m * n := by
  cases negative <;> simp [signed]

theorem dvd_of_signed_eq (h : signed negative n = i * d) : d ∣ n := by
  have hdvd : (d : Int) ∣ signed negative n := ⟨i, by rw [h, mul_comm]⟩
  cases negative with
  | true => exact Int.natCast_dvd_natCast.1 (Int.dvd_neg.1 hdvd)
  | false => exact Int.natCast_dvd_natCast.1 hdvd

theorem mul_zpow_eq_iff : (signed negative m : ℚ) * 2 ^ e = i ↔
    signed negative (m * power 2 e) = i * power 2 (-e) := by
  have hden : (power 2 (-e) : ℚ) ≠ 0 := by exact_mod_cast (power_pos Nat.two_pos (-e)).ne'
  have hpower : (2 : ℚ) ^ e = power 2 e / power 2 (-e) := by
    rw [power_div_power]
    norm_num
  rw [hpower, ← mul_div_assoc, div_eq_iff hden, signed_mul]
  exact_mod_cast Iff.rfl

theorem toInteger?_eq_some_iff : toInteger? x = some i ↔ value? x = some (i : ℚ) := by
  rw [value?_eq, toInteger?]
  cases parts x with
  | nan | infinite negative => exact iff_of_false (by simp) (by simp)
  | finite negative m e =>
    have hpos : 0 < power 2 (-e) := power_pos Nat.two_pos (-e)
    simp only [Option.some.injEq, mul_zpow_eq_iff]
    split
    · next hmod =>
      obtain ⟨k, rfl⟩ := Nat.dvd_of_mod_eq_zero hmod
      have hcancel : power 2 (-e) * k * power 2 e = k * power 2 e * power 2 (-e) := by ring
      rw [hcancel, Nat.mul_div_cancel _ hpos, signed_mul negative (k * power 2 e)]
      have hne : (power 2 (-e) : Int) ≠ 0 := by exact_mod_cast hpos.ne'
      rw [mul_left_inj' hne, Option.some.injEq]
    · next hmod =>
      -- A power that divides nothing away leaves the significand, so the exponent is negative.
      refine iff_of_false (by simp) fun h => hmod (Nat.mod_eq_zero_of_dvd ?_)
      obtain he | he := Int.le_total 0 e
      · rw [power, Int.toNat_of_nonpos (by omega)]
        exact one_dvd m
      · have hone : power 2 e = 1 := by rw [power, Int.toNat_of_nonpos he]
        rw [hone, Nat.mul_one] at h
        exact dvd_of_signed_eq h

theorem toInteger?_eq_none_iff : toInteger? x = none ↔
    x.isNaN = true ∨ x.isInf = true ∨ ∃ q, value? x = some q ∧ Int.fract q ≠ 0 := by
  rw [← or_assoc, ← value?_eq_none_iff, Option.eq_none_iff_forall_ne_some]
  simp only [ne_eq, toInteger?_eq_some_iff]
  cases value? x with
  | none => simp
  | some q => simp [Int.fract_eq_zero_iff, eq_comm]

end Integers

end ReversePolish.Number
