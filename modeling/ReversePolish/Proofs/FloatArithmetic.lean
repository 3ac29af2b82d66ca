import ReversePolish.Proofs.FloatOrder

namespace ReversePolish.Number

open Float.Model Float.Model.UnpackedFloat

section Shift

variable {em : ExtendedMantissa} {n d : Nat}

structure Keeps (em : ExtendedMantissa) (n d : Nat) : Prop where
  mantissa : em.mantissa = n / d
  round : em.roundBit = decide (d ≤ 2 * (n % d))
  sticky : em.stickyBit = decide (n % d ≠ 0 ∧ 2 * (n % d) ≠ d)

namespace Keeps

theorem exact (n : Nat) : Keeps (.ofMantissaAndAccuracy n .exact) n 1 where
  mantissa := (Nat.div_one n).symm
  round := by simp [ExtendedMantissa.ofMantissaAndAccuracy, Nat.mod_one]
  sticky := by simp [ExtendedMantissa.ofMantissaAndAccuracy, Nat.mod_one]

theorem shiftRightOne (h : Keeps em n d) (hd : 0 < d) : Keeps em.shiftRightOne n (d * 2) := by
  obtain ⟨m, r, s⟩ := em
  obtain ⟨rfl, rfl, rfl⟩ : m = n / d ∧ _ ∧ _ := ⟨h.mantissa, h.round, h.sticky⟩
  have hmod : n % (d * 2) = n % d + d * (n / d % 2) := Nat.mod_mul
  have hlt : n % d < d := Nat.mod_lt n hd
  refine ⟨Nat.div_div_eq_div_mul n d 2, ?_, ?_⟩
  · obtain hbit | hbit := Nat.mod_two_eq_zero_or_one (n / d)
    · simp [ExtendedMantissa.shiftRightOne, hmod, hbit]
      omega
    · simp [ExtendedMantissa.shiftRightOne, hmod, hbit]
      omega
  · rw [hmod]
    simp only [ExtendedMantissa.shiftRightOne, ← Bool.decide_or]
    apply decide_eq_decide.2
    obtain hbit | hbit := Nat.mod_two_eq_zero_or_one (n / d)
    · rw [hbit]
      omega
    · rw [hbit]
      omega

theorem shiftRight (h : Keeps em n d) (hd : 0 < d) (k : Nat) : Keeps (em >>> k) n (d * 2 ^ k) := by
  change Keeps (k.repeat ExtendedMantissa.shiftRightOne em) n _
  induction k with
  | zero => simpa [Nat.repeat] using h
  | succ k ih =>
    rw [Nat.repeat, Nat.pow_succ, ← Nat.mul_assoc]
    exact ih.shiftRightOne (Nat.mul_pos hd (Nat.two_pow_pos k))

theorem roundedMantissa (h : Keeps em n d) : em.roundedMantissa = roundDiv n d := by
  obtain ⟨m, r, s⟩ := em
  obtain ⟨rfl, hr, hs⟩ : m = n / d ∧ r = _ ∧ s = _ := ⟨h.mantissa, h.round, h.sticky⟩
  simp only [roundDiv]
  cases r <;> cases s <;>
    simp only [ExtendedMantissa.roundedMantissa, ExtendedMantissa.accuracy,
      Accuracy.roundToNearestEven, eq_comm (a := true), eq_comm (a := false), decide_eq_true_iff,
      decide_eq_false_iff_not] at hr hs ⊢ <;>
    split <;> omega

end Keeps

theorem roundedMantissa_shiftToExponent (m : Nat) (e t : Int) :
    (shiftToExponent m e .exact t).1.roundedMantissa = roundDiv m (power 2 (t - e)) := by
  have hshift := (Keeps.exact m).shiftRight Nat.one_pos (t - e).toNat
  rw [Nat.one_mul] at hshift
  exact hshift.roundedMantissa

end Shift

section Pack

variable {negative : Bool} {m r : Nat} {e t : Int}

theorem Canonical.parts_eq (h : Canonical m e) :
    significand ((e + 1074).toNat * fractions + m) = m ∧
      exponent ((e + 1074).toNat * fractions + m) = e := by
  obtain ⟨hlt, hle, hnormal⟩ := h
  rw [fractions_eq] at hlt hnormal
  rw [significand, exponent, fractions_eq]
  split <;> omega

theorem Canonical.lt_infinity_iff (h : Canonical m e) :
    (e + 1074).toNat * fractions + m < infinity ↔ e ≤ 971 := by
  obtain ⟨hlt, hle, hnormal⟩ := h
  rw [fractions_eq] at hlt hnormal
  rw [infinity_eq, fractions_eq]
  omega

theorem pack_unpack (x : Float) : Float.ofModel (.pack x.toModel.unpack) = x :=
  Float.ofBits_toBits x

theorem pack_finite (h : Canonical m e) (hm : 0 < m) :
    Float.ofModel (.pack (.finite (signOf negative) m e hm)) =
      ofMagnitude negative (min ((e + 1074).toNat * fractions + m) infinity) := by
  obtain ⟨hsignificand, hexponent⟩ := h.parts_eq
  by_cases he : e ≤ 971
  · have hlt := h.lt_infinity_iff.2 he
    rw [Nat.min_eq_left hlt.le, ← pack_unpack (ofMagnitude _ _), unpack_eq, parts_ofMagnitude hlt,
      hsignificand, hexponent, Parts.unpacked, dif_neg hm.ne']
  · -- The exponent takes more bits than there are.
    have hle := not_lt.1 (mt h.lt_infinity_iff.1 he)
    have hmagnitude : magnitude (ofMagnitude negative infinity) = infinity :=
      magnitude_ofMagnitude le_rfl
    rw [Nat.min_eq_right hle, ← pack_unpack (ofMagnitude _ _), unpack_of_eq hmagnitude,
      isNegative_ofMagnitude le_rfl]
    have hbits : 2 ^ 11 ≤ (e + 1023 + 52).toNat + 1 := by omega
    have hpack : UnpackedFloat.pack .binary64 (.finite (signOf negative) m e hm) =
        UnpackedFloat.pack .binary64 (.infinity (signOf negative)) := if_pos hbits
    simp only [Float.Model.pack, hpack]

theorem targetExponent_eq (m : Nat) (e : Int) :
    Format.binary64.targetExponent (totalExponent m e) = max (-1074) (m.log2 + e - 52) := by
  have hmin : Format.binary64.minExponent = -1074 := by decide
  have hbits : Format.binary64.mantissaBits = 53 := by decide
  rw [Format.targetExponent, totalExponent, hmin, hbits]
  omega

theorem log2_lt_of_lt (h : m < 2 * fractions) : m.log2 < 53 := by
  obtain rfl | hm := Nat.eq_zero_or_pos m
  · decide
  · exact (Nat.log2_lt hm.ne').2 h

theorem shiftToTargetExponent_of_lt (hr : r < 2 * fractions) (ht : -1074 ≤ t) :
    shiftToTargetExponent .binary64 r t .exact = (⟨r, false, false⟩, t) := by
  have hlog := log2_lt_of_lt hr
  have hshift : (max (-1074) (r.log2 + t - 52) - t).toNat = 0 := by omega
  rw [shiftToTargetExponent, targetExponent_eq, shiftToExponent, hshift]
  simp [ExtendedMantissa.ofMantissaAndAccuracy, HShiftRight.hShiftRight, Nat.repeat]

theorem shiftToTargetExponent_carry (ht : -1074 ≤ t) :
    shiftToTargetExponent .binary64 (2 * fractions) t .exact = (⟨fractions, false, false⟩, t + 1) := by
  have hlog : (2 * fractions).log2 = 53 := by decide +kernel
  have hshift : (max (-1074) ((53 : Nat) + t - 52) - t).toNat = 1 := by omega
  rw [shiftToTargetExponent, targetExponent_eq, hlog, shiftToExponent, hshift]
  rfl

theorem pack_zero (negative : Bool) :
    Float.ofModel (.pack (.zero (signOf negative))) = ofMagnitude negative 0 := by
  cases negative <;> decide +kernel

theorem roundDiv_bounds (h : e ≤ t) (ht : max (-1074) (m.log2 + e - 52) = t) :
    roundDiv m (power 2 (t - e)) ≤ 2 * fractions ∧
      (fractions ≤ roundDiv m (power 2 (t - e)) ∨ t = -1074) := by
  have hpos : 0 < power 2 (t - e) := power_pos Nat.two_pos _
  constructor
  · rw [← roundDiv_mul (2 * fractions) hpos]
    apply roundDiv_le_roundDiv
    calc m ≤ 2 ^ (m.log2 + 1) := Nat.lt_log2_self.le
      _ ≤ 2 ^ (53 + (t - e).toNat) := Nat.pow_le_pow_right Nat.two_pos (by omega)
      _ = 2 * fractions * power 2 (t - e) := Nat.pow_add 2 53 _
  · by_cases hmin : t = -1074
    · exact .inr hmin
    · left
      have hm : m ≠ 0 := by
        rintro rfl
        rw [Nat.log2_zero] at ht
        omega
      rw [← roundDiv_mul fractions hpos]
      apply roundDiv_le_roundDiv
      calc fractions * power 2 (t - e) = 2 ^ (52 + (t - e).toNat) := (Nat.pow_add 2 52 _).symm
        _ = 2 ^ m.log2 := by congr 1; omega
        _ ≤ m := Nat.log2_self_le hm

theorem pack_roundWithAccuracy (h : e ≤ t) (ht : max (-1074) (m.log2 + e - 52) = t) :
    Float.ofModel (.pack (roundWithAccuracy .binary64 (signOf negative) m e .exact)) =
      ofMagnitude negative
        (min ((t + 1074).toNat * fractions + roundDiv m (power 2 (t - e))) infinity) := by
  obtain ⟨hle, hnormal⟩ := roundDiv_bounds h ht
  have hmin : -1074 ≤ t := by omega
  have hfirst : (shiftToTargetExponent .binary64 m e .exact).1.roundedMantissa =
      roundDiv m (power 2 (t - e)) := by
    rw [shiftToTargetExponent, targetExponent_eq, ht, roundedMantissa_shiftToExponent]
  have hexponent : (shiftToTargetExponent .binary64 m e .exact).2 = t := by
    rw [shiftToTargetExponent, targetExponent_eq, ht]
    change e + ((t - e).toNat : Int) = t
    omega
  simp only [roundWithAccuracy, hfirst, hexponent]
  generalize roundDiv m (power 2 (t - e)) = r at *
  obtain hlt | rfl := Nat.lt_or_eq_of_le hle
  · simp only [shiftToTargetExponent_of_lt hlt hmin]
    by_cases hr : r = 0
    · have ht : t = -1074 := by
        rw [fractions_eq] at hnormal
        omega
      simp only [hr, dif_pos, pack_zero, ht]
      rfl
    · simp only [dif_neg hr]
      exact pack_finite ⟨hlt, hmin, hnormal⟩ (Nat.pos_of_ne_zero hr)
  · -- The mantissa has grown by one bit, which carries into the exponent.
    simp only [shiftToTargetExponent_carry hmin]
    have hcarry : (t + 1 + 1074).toNat * fractions + fractions =
        (t + 1074).toNat * fractions + 2 * fractions := by
      rw [fractions_eq]
      omega
    rw [← hcarry]
    exact pack_finite ⟨by decide, by omega, .inl le_rfl⟩ (by decide)

theorem roundDiv_congr {n d n' d' : Nat} (hd : 0 < d) (hd' : 0 < d') (h : n * d' = n' * d) :
    roundDiv n d = roundDiv n' d' := by
  rw [← roundDiv_mul_mul hd', ← roundDiv_mul_mul (n := n') hd, Nat.mul_comm d' n, h, Nat.mul_comm n' d,
    Nat.mul_comm d' d]

theorem power_mul_power (e t : Int) : power 2 e * power 2 (-t) * power 2 (t - e) =
    power 2 (e - t) * (power 2 (-e) * power 2 t) := by
  change 2 ^ e.toNat * 2 ^ (-t).toNat * 2 ^ (t - e).toNat =
    2 ^ (e - t).toNat * (2 ^ (-e).toNat * 2 ^ t.toNat)
  rw [← Nat.pow_add, ← Nat.pow_add, ← Nat.pow_add, ← Nat.pow_add]
  congr 1
  omega

theorem log2_mul_power (hm : m ≠ 0) (e : Int) : (m * power 2 e).log2 = m.log2 + e.toNat := by
  have hpos := Nat.two_pow_pos e.toNat
  change (m * 2 ^ e.toNat).log2 = _
  rw [Nat.log2_eq_iff (Nat.mul_ne_zero hm hpos.ne'), Nat.add_right_comm, Nat.pow_add, Nat.pow_add]
  exact ⟨Nat.mul_le_mul_right _ (Nat.log2_self_le hm), Nat.mul_lt_mul_of_pos_right Nat.lt_log2_self hpos⟩

theorem ofDyadic_eq (hm : m ≠ 0) (ht : max (-1074) (m.log2 + e - 52) = t) :
    ofDyadic negative m e = ofMagnitude negative (min
      ((t + 1074).toNat * fractions + roundDiv (m * power 2 (e - t)) (power 2 (t - e))) infinity) := by
  have hpos : ∀ e, 0 < power 2 e := power_pos Nat.two_pos
  have hne : m * power 2 e ≠ 0 := Nat.mul_ne_zero hm (hpos e).ne'
  have hround : roundDiv (m * power 2 e * power 2 (-t)) (power 2 (-e) * power 2 t) =
      roundDiv (m * power 2 (e - t)) (power 2 (t - e)) := by
    apply roundDiv_congr (Nat.mul_pos (hpos _) (hpos _)) (hpos _)
    rw [Nat.mul_assoc m, Nat.mul_assoc m, power_mul_power, Nat.mul_assoc]
  simp only [ofDyadic, ofRatio, nearest, if_neg hne, floorLog_dyadic hm, ht, hround]

theorem pack_round (hm : m ≠ 0) (e : Int) :
    Float.ofModel (.pack (UnpackedFloat.round .binary64 (signOf negative) m e)) =
      ofDyadic negative m e := by
  generalize ht : max (-1074) (m.log2 + e - 52) = t
  -- The exponent is first brought down to the target, if it lies above that.
  have hexponent : e - ((e - t).toNat : Int) ≤ t := by omega
  have htarget :
      max (-1074) (((m * power 2 (e - t)).log2 : Int) + (e - ((e - t).toNat : Int)) - 52) = t := by
    rw [log2_mul_power hm]
    omega
  have hpower : power 2 (t - (e - ((e - t).toNat : Int))) = power 2 (t - e) := by
    rw [power, power]
    congr 1
    omega
  rw [ofDyadic_eq hm ht, ← hpower, ← pack_roundWithAccuracy hexponent htarget]
  simp only [UnpackedFloat.round, targetExponent_eq, ht, decreaseExponent, Nat.shiftLeft_eq]
  rfl

end Pack

section Exact

variable {negative : Bool} {m : Nat} {e c : Int}

theorem signed_scale (negative : Bool) (m : Nat) (h : c ≤ e) :
    (signed negative (m * power 2 (e - c)) : ℚ) * 2 ^ c = signed negative m * 2 ^ e := by
  have hpower : (power 2 (e - c) : ℚ) = 2 ^ (e - c) := by
    obtain ⟨k, hk⟩ := Int.eq_ofNat_of_zero_le (sub_nonneg.2 h)
    simp [power, hk]
  rw [signed_mul, Int.cast_mul, Int.cast_natCast, hpower, mul_assoc, ← zpow_add₀ two_ne_zero,
    sub_add_cancel]

theorem canonical_scale (hm : m ≠ 0) (hlt : m < 2 * fractions) (ht : max (-1074) (m.log2 + e - 52) = c)
    (he : -1074 ≤ e) : Canonical (m * power 2 (e - c)) c := by
  have hne : m * power 2 (e - c) ≠ 0 := Nat.mul_ne_zero hm (power_pos Nat.two_pos _).ne'
  have hlog := log2_lt_of_lt hlt
  have hscale := log2_mul_power hm (e - c)
  have hlt' : m * power 2 (e - c) < 2 ^ 53 := (Nat.log2_lt hne).1 (by omega)
  refine ⟨hlt', by omega, ?_⟩
  by_cases hmin : c = -1074
  · exact .inr hmin
  · exact .inl ((Nat.le_log2 hne).1 (by omega))

theorem value?_ofDyadic (hm : m < 2 * fractions) (he : -1074 ≤ e) (he' : e ≤ 971) :
    value? (ofDyadic negative m e) = some ((signed negative m : ℚ) * 2 ^ e) := by
  by_cases hzero : m = 0
  · have hlt : 0 < infinity := by decide
    have hparts : parts (ofDyadic negative 0 e) = .finite negative 0 (-1074) := by
      rw [ofDyadic, ofRatio, Nat.zero_mul]
      exact parts_ofMagnitude hlt
    rw [hzero, value?_eq, hparts, signed_zero, Int.cast_zero, zero_mul]
    simp only [signed_zero, Int.cast_zero, zero_mul]
  · generalize ht : max (-1074) (m.log2 + e - 52) = t
    have hlog := log2_lt_of_lt hm
    have hle : t ≤ e := by omega
    have hone : power 2 (t - e) = 1 := by rw [power, Int.toNat_of_nonpos (by omega)]
    have hcanonical := canonical_scale hzero hm ht he
    have hlt := hcanonical.lt_infinity_iff.2 (hle.trans he')
    obtain ⟨hsignificand, hexponent⟩ := hcanonical.parts_eq
    rw [ofDyadic_eq hzero ht, hone, roundDiv_one, Nat.min_eq_left hlt.le, value?_eq, parts_ofMagnitude hlt,
      hsignificand, hexponent]
    exact congrArg some (signed_scale negative m hle)

end Exact

section Sum

variable {x y : Float} {p q : ℚ}

theorem ofDyadic_natAbs (negative : Bool) (i e : Int) :
    ofDyadic negative i.natAbs e = ofMagnitude negative (nearestTo (i * 2 ^ e)) := by
  have hpos : (0 : ℚ) < 2 ^ e := by positivity
  rw [ofDyadic, ofRatio, nearest_eq_nearestTo (power_pos Nat.two_pos _)]
  rw [ratio_dyadic, abs_mul, abs_of_pos hpos, Nat.cast_natAbs, Int.cast_abs]

theorem pack_normalize {i : Int} (hi : i ≠ 0) (e : Int) :
    Float.ofModel (.pack (UnpackedFloat.normalize .binary64 i e .positive)) =
      ofMagnitude (decide (i < 0)) (nearestTo (i * 2 ^ e)) := by
  rw [← ofDyadic_natAbs, ← pack_round (Int.natAbs_ne_zero.2 hi), UnpackedFloat.normalize]
  obtain hneg | hpos := Int.lt_or_gt_of_ne hi
  · have habs : (-i).toNat = i.natAbs := by omega
    rw [Int.compare_eq_lt.2 hneg, decide_eq_true hneg, ← habs]
    rfl
  · have habs : i.toNat = i.natAbs := by omega
    rw [Int.compare_eq_gt.2 hpos, decide_eq_false (by omega), ← habs]
    rfl

theorem unpack_of_value? (hx : value? x = some p) (hp : p ≠ 0) :
    ∃ m e hm, x.toModel.unpack = .finite (signOf (isNegative x)) m e hm ∧
      (signed (isNegative x) m : ℚ) * 2 ^ e = p := by
  obtain ⟨m, e, hparts, hvalue⟩ := parts_of_value? hx
  have hm : m ≠ 0 := by
    rintro rfl
    rw [signed_zero, Int.cast_zero, zero_mul] at hvalue
    exact hp hvalue.symm
  refine ⟨m, e, Nat.pos_of_ne_zero hm, ?_, hvalue⟩
  rw [unpack_eq, hparts, Parts.unpacked, dif_neg hm]

theorem add_eq (hx : value? x = some p) (hy : value? y = some q) (hp : p ≠ 0) (hq : q ≠ 0)
    (h : p + q ≠ 0) : x + y = ofMagnitude (decide (p + q < 0)) (nearestTo (p + q)) := by
  obtain ⟨m, e, hm, hunpack, rfl⟩ := unpack_of_value? hx hp
  obtain ⟨n, e', hn, hunpack', rfl⟩ := unpack_of_value? hy hq
  let i := signed (isNegative x) (m * power 2 (e - min e e')) +
    signed (isNegative y) (n * power 2 (e' - min e e'))
  have hsum : (signed (isNegative x) m : ℚ) * 2 ^ e + signed (isNegative y) n * 2 ^ e' =
      i * 2 ^ min e e' := by
    rw [← signed_scale _ m (min_le_left e e'), ← signed_scale _ n (min_le_right e e'), ← add_mul,
      Int.cast_add]
  have hpos : (0 : ℚ) < 2 ^ min e e' := by positivity
  rw [hsum] at h ⊢
  have hi : i ≠ 0 := by
    rintro hi
    rw [hi, Int.cast_zero, zero_mul] at h
    exact h rfl
  have hsign : decide ((i : ℚ) * 2 ^ min e e' < 0) = decide (i < 0) := by
    rw [decide_eq_decide, ← zero_mul ((2 : ℚ) ^ min e e'), mul_lt_mul_iff_of_pos_right hpos,
      Int.cast_lt_zero]
  rw [hsign, ← pack_normalize hi]
  change Float.ofModel (.pack (UnpackedFloat.add .binary64 x.toModel.unpack y.toModel.unpack)) = _
  rw [hunpack, hunpack']
  simp only [UnpackedFloat.add, decreaseExponent, Nat.shiftLeft_eq, apply_signOf]
  rfl

theorem ofMagnitude_of_value? (hx : value? x = some p) (hp : p ≠ 0) :
    ofMagnitude (decide (p < 0)) (nearestTo p) = x := by
  have hsign : decide (p < 0) = isNegative x := by
    rw [Bool.eq_iff_iff, decide_eq_true_iff, isNegative_iff hx hp]
  rw [nearestTo_of_value? hx, hsign, ofMagnitude_magnitude]

theorem add_of_infinite (hx : value? x = some p) (hy : magnitude y = infinity) : x + y = y := by
  change Float.ofModel (.pack (UnpackedFloat.add .binary64 x.toModel.unpack y.toModel.unpack)) = y
  have hadd : UnpackedFloat.add .binary64 x.toModel.unpack y.toModel.unpack = y.toModel.unpack := by
    rw [unpack_of_lt (lt_infinity_of_value? hx), unpack_of_eq hy, Parts.unpacked]
    split <;> rfl
  rw [hadd, pack_unpack]

end Sum

end ReversePolish.Number
