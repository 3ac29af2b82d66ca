import ReversePolish.Arithmetic
import ReversePolish.Proofs.FloatArithmetic

namespace ReversePolish

namespace Number

section Remainder

variable {p q c : ℚ}

/-- What is left of `p` above the nearest whole multiple of `q`, in the direction of `q`. -/
def remainder (p q : ℚ) : ℚ :=
  p - q * ⌊p / q⌋

theorem remainder_of_pos (hq : 0 < q) : 0 ≤ remainder p q ∧ remainder p q < q := by
  rw [remainder, mul_comm]
  exact ⟨Int.sub_floor_div_mul_nonneg p hq, Int.sub_floor_div_mul_lt p hq⟩

theorem remainder_neg_neg (p q : ℚ) : remainder (-p) (-q) = -remainder p q := by
  rw [remainder, remainder, neg_div_neg_eq]
  ring

theorem remainder_of_neg (hq : q < 0) : q < remainder p q ∧ remainder p q ≤ 0 := by
  obtain ⟨hnonneg, hlt⟩ := remainder_of_pos (p := -p) (neg_pos.2 hq)
  rw [remainder_neg_neg] at hnonneg hlt
  exact ⟨neg_lt_neg_iff.1 hlt, neg_nonneg.1 hnonneg⟩

theorem abs_remainder_lt (hq : q ≠ 0) : |remainder p q| < |q| := by
  obtain hneg | hpos := hq.lt_or_gt
  · obtain ⟨hlt, hnonpos⟩ := remainder_of_neg (p := p) hneg
    rw [abs_of_nonpos hnonpos, abs_of_neg hneg]
    exact neg_lt_neg hlt
  · obtain ⟨hnonneg, hlt⟩ := remainder_of_pos (p := p) hpos
    rwa [abs_of_nonneg hnonneg, abs_of_pos hpos]

theorem remainder_lt_zero_iff (hq : q ≠ 0) (h : remainder p q ≠ 0) : remainder p q < 0 ↔ q < 0 := by
  obtain hneg | hpos := hq.lt_or_gt
  · exact iff_of_true (lt_of_le_of_ne (remainder_of_neg hneg).2 h) hneg
  · exact iff_of_false (remainder_of_pos hpos).1.not_gt hpos.not_gt

theorem remainder_mul (hc : c ≠ 0) : remainder (p * c) (q * c) = remainder p q * c := by
  rw [remainder, remainder, mul_div_mul_right p q hc]
  ring

theorem floor_div_intCast (i j : Int) : ⌊(i : ℚ) / j⌋ = i.fdiv j := by
  obtain ⟨n, rfl | rfl⟩ := j.eq_nat_or_neg
  · rw [Int.cast_natCast, Rat.floor_intCast_div_natCast, Int.fdiv_eq_ediv_of_nonneg _ n.cast_nonneg]
  · rw [← Int.neg_fdiv_neg, neg_neg, Int.fdiv_eq_ediv_of_nonneg _ n.cast_nonneg,
      ← Rat.floor_intCast_div_natCast, Int.cast_neg, Int.cast_neg, Int.cast_natCast, div_neg, neg_div]

theorem remainder_intCast (i j : Int) : remainder i j = (i.fmod j : Int) := by
  rw [remainder, floor_div_intCast, Int.fmod_def]
  push_cast
  rfl

end Remainder

section Rounded

variable {a b : Float} {p q : ℚ}

theorem tmod_signed (negative negative' : Bool) (m n : Nat) :
    (signed negative m).tmod (signed negative' n) = signed negative (m % n) := by
  cases negative <;> cases negative' <;> simp [signed, Int.neg_tmod, Int.tmod_neg, ← Int.ofNat_tmod]

theorem isNegative_ofDyadic (negative : Bool) (m : Nat) (e : Int) :
    isNegative (ofDyadic negative m e) = negative := by
  apply isNegative_ofMagnitude
  rw [nearest]
  split
  · exact Nat.zero_le _
  · exact Nat.min_le_right _ _

theorem eq_of_value? {x : Float} (hx : value? x = some p) :
    p = signed (isNegative x) (significand (magnitude x)) * (2 : ℚ) ^ exponent (magnitude x) := by
  have hlt := lt_infinity_of_value? hx
  rw [value?_eq, parts_of_lt hlt] at hx
  exact (Option.some.inj hx).symm

theorem truncMod_eq (ha : value? a = some p) (hb : value? b = some q) (hq : q ≠ 0) :
    truncMod a b = let e := min (exponent (magnitude a)) (exponent (magnitude b))
      ofDyadic (isNegative a) (significand (magnitude a) * power 2 (exponent (magnitude a) - e) %
        (significand (magnitude b) * power 2 (exponent (magnitude b) - e))) e := by
  have hn : significand (magnitude b) ≠ 0 :=
    significand_ne_zero (mt (magnitude_eq_zero_iff hb).1 hq)
  simp only [truncMod, parts_of_lt (lt_infinity_of_value? ha), parts_of_lt (lt_infinity_of_value? hb),
    if_neg hn]

theorem isNegative_truncMod (ha : value? a = some p) (hb : value? b = some q) (hq : q ≠ 0) :
    isNegative (truncMod a b) = isNegative a := by
  rw [truncMod_eq ha hb hq]
  exact isNegative_ofDyadic _ _ _

/-- What is left needs no more bits than one of the numbers has, so that it is not rounded. -/
theorem exists_value?_truncMod (ha : value? a = some p) (hb : value? b = some q) (hq : q ≠ 0) :
    ∃ i j c : Int, p = i * (2 : ℚ) ^ c ∧ q = j * (2 : ℚ) ^ c ∧
      value? (truncMod a b) = some ((i.tmod j : Int) * (2 : ℚ) ^ c) := by
  have hn : significand (magnitude b) ≠ 0 :=
    significand_ne_zero (mt (magnitude_eq_zero_iff hb).1 hq)
  rw [truncMod_eq ha hb hq]
  have hle := exponent_le (lt_infinity_of_value? ha)
  replace ha := eq_of_value? ha
  replace hb := eq_of_value? hb
  obtain ⟨hm, he, _⟩ := canonical (magnitude a)
  obtain ⟨hn', he', _⟩ := canonical (magnitude b)
  generalize significand (magnitude a) = m at *
  generalize significand (magnitude b) = n at *
  generalize exponent (magnitude a) = e at *
  generalize exponent (magnitude b) = e' at *
  refine ⟨signed (isNegative a) (m * power 2 (e - min e e')),
    signed (isNegative b) (n * power 2 (e' - min e e')), min e e', ?_, ?_, ?_⟩
  · rw [ha, signed_scale _ m (min_le_left e e')]
  · rw [hb, signed_scale _ n (min_le_right e e')]
  · rw [tmod_signed]
    refine value?_ofDyadic ?_ (le_min he he') ((min_le_left e e').trans hle)
    have hone : power 2 0 = 1 := rfl
    obtain h | h := Int.le_total e e'
    · rw [Int.min_eq_left h, Int.sub_self, hone, Nat.mul_one]
      exact (Nat.mod_le _ _).trans_lt hm
    · rw [Int.min_eq_right h, Int.sub_self, hone, Nat.mul_one]
      exact (Nat.mod_lt _ (Nat.pos_of_ne_zero hn)).trans hn'

theorem fmod_eq (i j : Int) :
    i.fmod j = if i.tmod j ≠ 0 ∧ ¬ (i.tmod j < 0 ↔ j < 0) then i.tmod j + j else i.tmod j := by
  rw [Int.fmod_eq_tmod]
  by_cases hdvd : j ∣ i
  · rw [if_pos hdvd, Int.add_zero, if_neg]
    exact fun h => h.1 (Int.tmod_eq_zero_of_dvd hdvd)
  · have hsign := Int.sign_tmod i j
    have hne : i.tmod j ≠ 0 := mt Int.dvd_of_tmod_eq_zero hdvd
    have hneg : i.tmod j < 0 ↔ i < 0 := by
      rw [if_neg hdvd] at hsign
      rw [← Int.sign_eq_neg_one_iff_neg, ← Int.sign_eq_neg_one_iff_neg, hsign]
    simp only [if_neg hdvd, hneg]
    split_ifs <;> omega

def Opposes (t q : ℚ) : Prop :=
  t ≠ 0 ∧ ¬ (t < 0 ↔ q < 0)

theorem opposes_iff {r : Float} {t : ℚ} (hr : value? r = some t) (hb : value? b = some q) :
    (r != 0.0 && (decide (r < 0.0) != decide (b < 0.0))) = true ↔ Opposes t q := by
  have hzero : value? 0.0 = some 0 := value?_zero
  rw [Bool.and_eq_true, bne, Bool.not_eq_true', ← Bool.not_eq_true, beq_iff_value hr hzero,
    bne_iff_ne, ne_eq, decide_eq_decide, lt_iff_value hr hzero, lt_iff_value hb hzero]
  rfl

theorem opposes_scale (i j c : Int) :
    Opposes (i * (2 : ℚ) ^ c) (j * (2 : ℚ) ^ c) ↔ i ≠ 0 ∧ ¬ (i < 0 ↔ j < 0) := by
  have hpos : (0 : ℚ) < 2 ^ c := by positivity
  have hlt (k : Int) : (k : ℚ) * 2 ^ c < 0 ↔ k < 0 := by
    rw [← zero_mul ((2 : ℚ) ^ c), mul_lt_mul_iff_of_pos_right hpos, Int.cast_lt_zero]
  rw [Opposes, hlt, hlt, mul_ne_zero_iff_right hpos.ne', Int.cast_ne_zero]

theorem truncMod_spec (ha : value? a = some p) (hb : value? b = some q) (hq : q ≠ 0) :
    ∃ t, value? (truncMod a b) = some t ∧ (remainder p q = 0 ↔ t = 0) ∧
      (Opposes t q → remainder p q = t + q) ∧ (¬ Opposes t q → remainder p q = t) := by
  obtain ⟨i, j, c, rfl, rfl, ht⟩ := exists_value?_truncMod ha hb hq
  have hpos : (0 : ℚ) < 2 ^ c := by positivity
  have hremainder : remainder (i * 2 ^ c) (j * 2 ^ c) = (i.fmod j : Int) * (2 : ℚ) ^ c := by
    rw [remainder_mul hpos.ne', remainder_intCast]
  refine ⟨_, ht, ?_, fun h => ?_, fun h => ?_⟩
  · rw [hremainder, mul_eq_zero_iff_right hpos.ne', mul_eq_zero_iff_right hpos.ne',
      Int.cast_eq_zero, Int.cast_eq_zero, ← Int.dvd_iff_fmod_eq_zero, ← Int.dvd_iff_tmod_eq_zero]
  · rw [hremainder, fmod_eq, if_pos ((opposes_scale _ _ _).1 h), Int.cast_add, add_mul]
  · rw [hremainder, fmod_eq, if_neg (mt (opposes_scale _ _ _).2 h)]

theorem floorMod_eq (ha : value? a = some p) (hb : value? b = some q) (hq : q ≠ 0) :
    floorMod a b = ofMagnitude (if remainder p q = 0 then isNegative a else isNegative b)
      (nearestTo (remainder p q)) := by
  obtain ⟨t, ht, hzero, hopposed, hagrees⟩ := truncMod_spec ha hb hq
  have hnegative (hne : remainder p q ≠ 0) : isNegative b = decide (remainder p q < 0) := by
    rw [Bool.eq_iff_iff, decide_eq_true_iff, isNegative_iff hb hq, remainder_lt_zero_iff hq hne]
  rw [floorMod]
  by_cases h : Opposes t q
  · have hremainder := hopposed h
    have hne : remainder p q ≠ 0 := mt hzero.1 h.1
    rw [if_pos ((opposes_iff ht hb).2 h), if_neg hne, hnegative hne, hremainder]
    exact add_eq ht hb h.1 hq (hremainder ▸ hne)
  · have hremainder := hagrees h
    rw [if_neg (mt (opposes_iff ht hb).1 h)]
    by_cases hne : remainder p q = 0
    · rw [if_pos hne, ← isNegative_truncMod ha hb hq, hremainder, nearestTo_of_value? ht,
        ofMagnitude_magnitude]
    · rw [if_neg hne, hnegative hne, hremainder]
      exact (ofMagnitude_of_value? ht (hremainder ▸ hne)).symm

theorem floorMod_of_infinite (ha : value? a = some p) (hb : magnitude b = infinity) :
    floorMod a b = if magnitude a = 0 ∨ isNegative a = isNegative b then a else b := by
  have hzero : magnitude 0.0 ≤ infinity := by decide +kernel
  have hordinal : ordinal 0.0 = 0 := ordinal_zero
  have hlt := lt_infinity_of_value? ha
  have htrunc : truncMod a b = a := by
    have hparts : parts b = .infinite (isNegative b) := by
      rw [parts, if_neg hb.not_lt, if_pos hb]
    simp only [truncMod, parts_of_lt hlt, hparts]
  have hcorrected : (a != 0.0 && (decide (a < 0.0) != decide (b < 0.0))) = true ↔
      ¬ (magnitude a = 0 ∨ isNegative a = isNegative b) := by
    have hpos : 0 < infinity := by decide
    rw [Bool.and_eq_true, bne, Bool.not_eq_true', ← Bool.not_eq_true, beq_iff_ordinal hlt.le hzero,
      bne_iff_ne, ne_eq, decide_eq_decide, lt_iff_ordinal hlt.le hzero, lt_iff_ordinal hb.le hzero,
      hordinal, ordinal, ordinal, hb]
    cases isNegative a <;> cases isNegative b <;> simp [signed] <;> omega
  rw [floorMod, htrunc]
  by_cases h : magnitude a = 0 ∨ isNegative a = isNegative b
  · rw [if_neg (mt hcorrected.1 (not_not.2 h)), if_pos h]
  · rw [if_pos (hcorrected.2 h), if_neg h, add_of_infinite ha hb]

structure Within (r b : Float) : Prop where
  sign : magnitude r = 0 ∨ isNegative r = isNegative b
  le : magnitude r ≤ magnitude b

theorem within_ofMagnitude {negative : Bool} {bits : Nat} (hb : magnitude b ≤ infinity)
    (hsign : bits = 0 ∨ negative = isNegative b) (hle : bits ≤ magnitude b) :
    Within (ofMagnitude negative bits) b where
  sign := by rwa [magnitude_ofMagnitude (hle.trans hb), isNegative_ofMagnitude (hle.trans hb)]
  le := by rwa [magnitude_ofMagnitude (hle.trans hb)]

theorem within_floorMod (ha : value? a = some p) (hb : magnitude b ≤ infinity)
    (hzero : magnitude b ≠ 0) : Within (floorMod a b) b := by
  obtain hlt | heq := Nat.lt_or_eq_of_le hb
  · have hq := value?_of_lt hlt
    have hne := mt (magnitude_eq_zero_iff hq).2 hzero
    rw [floorMod_eq ha hq hne]
    apply within_ofMagnitude hb
    · split
      · next hremainder =>
        rw [hremainder]
        exact .inl rfl
      · exact .inr rfl
    · calc nearestTo (remainder p (valueAt (ordinal b)))
          ≤ nearestTo (valueAt (ordinal b)) := nearestTo_mono (abs_remainder_lt hne).le
        _ = magnitude b := nearestTo_of_value? hq
  · rw [floorMod_of_infinite ha heq]
    split
    · next hsign => exact ⟨hsign, (lt_infinity_of_value? ha).le.trans_eq heq.symm⟩
    · exact ⟨.inr rfl, le_rfl⟩

theorem Within.signs {r : Float} (h : Within r b) (hb : magnitude b ≤ infinity)
    (hzero : magnitude b ≠ 0) : (r == 0) = true ∨ 0 < r ∧ 0 < b ∨ r < 0 ∧ b < 0 := by
  have hr : magnitude r ≤ infinity := h.le.trans hb
  have hle : magnitude 0 ≤ infinity := by decide +kernel
  rw [beq_iff_ordinal hr hle, lt_iff_ordinal hle hr, lt_iff_ordinal hle hb, lt_iff_ordinal hr hle,
    lt_iff_ordinal hb hle, ordinal_zero, ordinal, ordinal]
  obtain hsign | hsign := h.sign
  · rw [hsign]
    exact .inl (signed_zero _)
  · rw [hsign]
    cases isNegative b <;> simp only [signed, if_true, if_false, Bool.false_eq_true] <;> omega

theorem value?_floorMod {i j : Int} (ha : value? a = some (i : ℚ)) (hb : value? b = some (j : ℚ))
    (hj : (j : ℚ) ≠ 0) (hle : |j| ≤ 2 ^ 53) : value? (floorMod a b) = some (remainder i j) := by
  have hlt := abs_remainder_lt (p := i) hj
  have hsign : remainder (i : ℚ) j ≠ 0 → (isNegative b = true ↔ remainder (i : ℚ) j < 0) := fun hne =>
    (isNegative_iff hb hj).trans (remainder_lt_zero_iff hj hne).symm
  rw [floorMod_eq ha hb hj]
  rw [remainder_intCast] at hlt hsign ⊢
  generalize i.fmod j = k at hlt hsign ⊢
  have hk : k.natAbs ≤ 2 ^ 53 := by
    have hlt : |k| < |j| := by exact_mod_cast hlt
    zify
    exact (hlt.trans_le hle).le
  have hnearest : nearestTo (k : ℚ) = nearest k.natAbs 1 := by
    rw [nearestTo, Rat.num_intCast, Rat.den_intCast]
  rw [← toInteger?_eq_some_iff, hnearest, toInteger?_nearest _ (hk.trans_lt (by decide)),
    rounded_eq_iff.2 (spacing_dvd_iff.2 (exact_of_natAbs_le hk)), Option.some.injEq]
  by_cases hzero : (k : ℚ) = 0
  · rw [Int.cast_eq_zero] at hzero
    rw [hzero]
    exact signed_zero _
  · simp only [if_neg hzero, signed, hsign hzero, Int.cast_lt_zero]
    split <;> omega

end Rounded

end Number

open Number

/-- The modulus of a finite number by any number but zero, an infinite one included, is a number: a
zero or of the divisor's sign, and no greater than the divisor. Of whole numbers it is exactly what
is left, as long as all whole numbers up to the divisor are floats. -/
theorem modulus_is_floored (h : Heap) {a b : Float} (ha : a.isFinite = true) (hb : b.isNaN = false)
    (hzero : (b == 0) = false) :
    ∃ r, Operation.mod.applyBinary h (.number a) (.number b) = .ok (.number r) ∧
      ((r == 0) = true ∨ 0 < r ∧ 0 < b ∨ r < 0 ∧ b < 0) ∧ r.abs ≤ b.abs ∧
      ∀ i j : Int, value? a = some (i : ℚ) → value? b = some (j : ℚ) → |j| ≤ 2 ^ 53 →
        value? r = some ((i - j * ⌊(i : ℚ) / j⌋ : Int) : ℚ) ∧
        (0 < b → 0 ≤ r ∧ r < b) ∧ (b < 0 → b < r ∧ r ≤ 0) := by
  obtain ⟨p, hp⟩ := isFinite_iff.1 ha
  rw [isNaN_eq_false_iff] at hb
  have hne : magnitude b ≠ 0 := by
    rw [← Bool.not_eq_true, beq_iff_ordinal hb (by decide +kernel), ordinal_zero] at hzero
    rwa [Ne, ← natAbs_ordinal, Int.natAbs_eq_zero]
  have hwithin := within_floorMod hp hb hne
  refine ⟨floorMod a b, ?_, hwithin.signs hb hne,
    (abs_le_abs_iff (hwithin.le.trans hb) hb).2 hwithin.le, ?_⟩
  · change (if b == 0 then _ else _) = _
    rw [hzero]
    rfl
  · intro i j hi hj hle
    have hj' : (j : ℚ) ≠ 0 := mt (magnitude_eq_zero_iff hj).2 hne
    have hr := value?_floorMod hi hj hj' hle
    rw [lt_iff_value value?_zero hj, le_iff_value value?_zero hr, lt_iff_value hr hj,
      lt_iff_value hj value?_zero, lt_iff_value hj hr, le_iff_value hr value?_zero]
    refine ⟨?_, remainder_of_pos, remainder_of_neg⟩
    rw [hr, remainder]
    push_cast
    rfl

theorem modulus_is_floored_negative :
    (-1180591620717411303424.0 : Float).isFinite = true ∧ (10.0 : Float).isNaN = false ∧
      ((10.0 : Float) == 0) = false ∧
    ∃ r, Operation.mod.applyBinary {} (.number (-1180591620717411303424.0)) (.number 10.0) =
        .ok (.number r) ∧
      ((r == 0) = true ∨ 0 < r ∧ (0 : Float) < 10.0 ∨ r < 0 ∧ (10.0 : Float) < 0) ∧
      r.abs ≤ (10.0 : Float).abs ∧ value? r = some 6 ∧ 0 ≤ r ∧ r < 10.0 := by
  have ha : (-1180591620717411303424.0 : Float).isFinite = true := by decide +kernel
  have hb : (10.0 : Float).isNaN = false := by decide +kernel
  have hzero : ((10.0 : Float) == 0) = false := by decide +kernel
  obtain ⟨r, hr, hsigns, hle, hwhole⟩ := modulus_is_floored {} ha hb hzero
  obtain ⟨hvalue, hrange, _⟩ := hwhole (-1180591620717411303424) 10
    (toInteger?_eq_some_iff.1 (by decide +kernel)) (toInteger?_eq_some_iff.1 (by decide +kernel))
    (by norm_num)
  rw [floor_div_intCast] at hvalue
  exact ⟨ha, hb, hzero, r, hr, hsigns, hle, hvalue, hrange (by decide +kernel)⟩

-- The sign is the divisor's, what is left may round up to the divisor, and an infinite one may
-- itself be left.
example : Number.floorMod (-7.0) 3.0 = 2.0 ∧ Number.floorMod 7.0 (-3.0) = -2.0 ∧
    Number.floorMod (-5e-324) 1.0 = 1.0 ∧ Number.floorMod 2.5 (-1.0 / 0.0) = -1.0 / 0.0 := by
  decide +kernel

end ReversePolish
