import ReversePolish.Proofs.FloatValue

/-!
The order of floats. Floats other than what is no number are compared by their places in one
sequence, which the bits count from zero on, in both directions. Finite ones stand in it as the
numbers do that they are.
-/

namespace ReversePolish.Number

open Float.Model (UnpackedFloat)

section Magnitudes

variable {bits bits' : Nat}

theorem exponent_lt_or (h : bits < bits') : exponent bits < exponent bits' ∨
    exponent bits = exponent bits' ∧ significand bits < significand bits' := by
  have hbits := add_significand bits
  have hbits' := add_significand bits'
  obtain ⟨_, hle, hnormal⟩ := canonical bits
  obtain ⟨hlt', hle', _⟩ := canonical bits'
  rw [fractions_eq] at hbits hbits' hnormal hlt'
  omega

theorem compare_exponent_of_lt (h : bits < bits') :
    (compare (exponent bits) (exponent bits')).then (compare (significand bits) (significand bits')) =
      .lt := by
  obtain hlt | ⟨heq, hlt⟩ := exponent_lt_or h
  · rw [compare_lt_iff_lt.2 hlt]
    rfl
  · rw [compare_eq_iff_eq.2 heq, compare_lt_iff_lt.2 hlt]
    rfl

theorem compare_exponent (bits bits' : Nat) :
    (compare (exponent bits) (exponent bits')).then (compare (significand bits) (significand bits')) =
      compare (bits : Int) bits' := by
  obtain hlt | rfl | hgt := Nat.lt_trichotomy bits bits'
  · rw [compare_exponent_of_lt hlt, Int.compare_eq_lt.2 (by omega)]
  · simp
  · rw [Std.OrientedOrd.eq_swap (a := exponent bits), Std.OrientedOrd.eq_swap (a := significand bits),
      ← Ordering.swap_then, compare_exponent_of_lt hgt, Int.compare_eq_gt.2 (by omega)]
    rfl

def absolute (bits : Nat) : ℚ :=
  significand bits * 2 ^ exponent bits

theorem absolute_strictMono : StrictMono absolute := by
  intro bits bits' h
  have hpos : (0 : ℚ) < 2 ^ exponent bits := by positivity
  obtain hlt | ⟨heq, hlt⟩ := exponent_lt_or h
  · obtain ⟨hsignificand, hle, _⟩ := canonical bits
    obtain ⟨_, _, hnormal⟩ := canonical bits'
    have hfractions : fractions ≤ significand bits' := by omega
    calc (significand bits : ℚ) * 2 ^ exponent bits
        < (2 * fractions : Nat) * 2 ^ exponent bits :=
          mul_lt_mul_of_pos_right (by exact_mod_cast hsignificand) hpos
      _ = fractions * 2 ^ (exponent bits + 1) := by
          rw [zpow_add_one₀ two_ne_zero]
          push_cast
          ring
      _ ≤ significand bits' * 2 ^ exponent bits' := by
          gcongr
          · exact one_le_two
          · omega
  · rw [absolute, absolute, ← heq]
    exact mul_lt_mul_of_pos_right (by exact_mod_cast hlt) hpos

theorem absolute_zero : absolute 0 = 0 := by
  rw [absolute, significand_eq_zero_iff.2 rfl, Nat.cast_zero, zero_mul]

def valueAt (i : Int) : ℚ :=
  i.sign * absolute i.natAbs

theorem valueAt_natCast (bits : Nat) : valueAt bits = absolute bits := by
  obtain rfl | hpos := Nat.eq_zero_or_pos bits
  · rw [absolute_zero]
    simp [valueAt]
  · simp [valueAt, Int.sign_natCast_of_ne_zero hpos.ne']

theorem valueAt_neg (i : Int) : valueAt (-i) = -valueAt i := by
  simp [valueAt]

theorem valueAt_strictMono : StrictMono valueAt := by
  apply strictMono_of_odd_strictMonoOn_nonneg valueAt_neg
  intro i hi j hj h
  lift i to Nat using hi
  lift j to Nat using hj
  rw [valueAt_natCast, valueAt_natCast]
  exact absolute_strictMono (by exact_mod_cast h)

theorem valueAt_zero : valueAt 0 = 0 := by
  simp [valueAt]

theorem valueAt_eq_zero_iff {i : Int} : valueAt i = 0 ↔ i = 0 :=
  valueAt_strictMono.injective.eq_iff' valueAt_zero

theorem abs_valueAt (i : Int) : |valueAt i| = absolute i.natAbs := by
  have hnonneg : ∀ bits, 0 ≤ absolute bits := fun bits => by
    rw [absolute]
    positivity
  obtain ⟨bits, rfl | rfl⟩ := i.eq_nat_or_neg
  · rw [valueAt_natCast, abs_of_nonneg (hnonneg bits), Int.natAbs_natCast]
  · rw [valueAt_neg, abs_neg, valueAt_natCast, abs_of_nonneg (hnonneg bits), Int.natAbs_neg,
      Int.natAbs_natCast]

end Magnitudes

section Floats

variable {x y : Float} {p q : ℚ}

/-- The place of a float in the sequence. Both zeros have the same. -/
def ordinal (x : Float) : Int :=
  signed (isNegative x) (magnitude x)

theorem ordinal_zero : ordinal 0 = 0 := by
  decide +kernel

theorem natAbs_ordinal (x : Float) : (ordinal x).natAbs = magnitude x := by
  rw [ordinal]
  cases isNegative x <;> simp [signed]

theorem isNaN_eq_false_iff : x.isNaN = false ↔ magnitude x ≤ infinity := by
  rw [← Bool.not_eq_true, isNaN_iff, parts]
  split
  · next hlt => exact iff_of_true (by simp) hlt.le
  · split
    · next heq => exact iff_of_true (by simp) heq.le
    · next hlt heq => exact iff_of_false (by simp) (by omega)

theorem unpack_of_le (h : magnitude x ≤ infinity) : x.toModel.unpack =
    if hzero : magnitude x = 0 then .zero (signOf (isNegative x))
    else if magnitude x = infinity then .infinity (signOf (isNegative x))
    else .finite (signOf (isNegative x)) (significand (magnitude x)) (exponent (magnitude x))
      (Nat.pos_of_ne_zero (significand_ne_zero hzero)) := by
  obtain hlt | heq := Nat.lt_or_eq_of_le h
  · rw [unpack_of_lt hlt, Parts.unpacked]
    by_cases hzero : magnitude x = 0
    · rw [dif_pos (significand_eq_zero_iff.2 hzero), dif_pos hzero]
    · rw [dif_neg (significand_ne_zero hzero), dif_neg hzero, if_neg hlt.ne]
  · have hzero : magnitude x ≠ 0 := heq ▸ (by decide)
    rw [unpack_of_eq heq, dif_neg hzero, if_pos heq]

theorem swap_compare (m n : Int) : (compare m n).swap = compare (-m) (-n) := by
  rw [← Std.OrientedOrd.eq_swap]
  simp only [compare, compareOfLessAndEq, neg_lt_neg_iff, neg_inj, eq_comm]

theorem compare_signOf (negative negative' : Bool) : compare (signOf negative) (signOf negative') =
    compare (signed negative infinity) (signed negative' infinity) := by
  cases negative <;> cases negative' <;> decide

theorem compare_unpack (hx : magnitude x ≤ infinity) (hy : magnitude y ≤ infinity) :
    x.toModel.unpack.compare y.toModel.unpack = some (compare (ordinal x) (ordinal y)) := by
  have hpos : 0 < infinity := by decide
  rw [unpack_of_le hx, unpack_of_le hy, ordinal, ordinal, eq_comm]
  generalize magnitude x = m at *
  generalize magnitude y = n at *
  -- Each is zero, finite or infinite, of either sign. Only finite ones of one sign need their parts
  -- compared.
  split_ifs <;> simp only [UnpackedFloat.compare, compare_signOf, *] <;>
    cases isNegative x <;> cases isNegative y <;>
    simp [signOf, signed, compare_exponent, swap_compare, compare_lt_iff_lt, compare_gt_iff_gt] <;>
    omega

theorem lt_iff_ordinal (hx : magnitude x ≤ infinity) (hy : magnitude y ≤ infinity) :
    x < y ↔ ordinal x < ordinal y := by
  change decide (x.toModel.unpack.lt y.toModel.unpack = true) = true ↔ _
  rw [decide_eq_true_iff, UnpackedFloat.lt, compare_unpack hx hy]
  simp [compare_lt_iff_lt]

theorem le_iff_ordinal (hx : magnitude x ≤ infinity) (hy : magnitude y ≤ infinity) :
    x ≤ y ↔ ordinal x ≤ ordinal y := by
  change decide (x.toModel.unpack.le y.toModel.unpack = true) = true ↔ _
  rw [decide_eq_true_iff, UnpackedFloat.le, compare_unpack hx hy]
  simp [compare_le_iff_le, Ordering.isLE_iff_ne_gt]

theorem beq_iff_ordinal (hx : magnitude x ≤ infinity) (hy : magnitude y ≤ infinity) :
    (x == y) = true ↔ ordinal x = ordinal y := by
  change (x.toModel.unpack.compare y.toModel.unpack == some .eq) = true ↔ _
  rw [compare_unpack hx hy]
  simp

theorem abs_eq (h : magnitude x ≤ infinity) : x.abs = ofMagnitude false (magnitude x) := by
  have hunpack : x.toModel.unpack.abs = (ofMagnitude false (magnitude x)).toModel.unpack := by
    rw [unpack_of_le h, unpack_of_le (by rwa [magnitude_ofMagnitude h])]
    simp only [magnitude_ofMagnitude h, isNegative_ofMagnitude h]
    split_ifs <;> rfl
  change Float.ofModel (.pack x.toModel.unpack.abs) = _
  rw [hunpack]
  exact Float.ofBits_toBits _

theorem abs_le_abs_iff (hx : magnitude x ≤ infinity) (hy : magnitude y ≤ infinity) :
    x.abs ≤ y.abs ↔ magnitude x ≤ magnitude y := by
  have hx' : magnitude (ofMagnitude false (magnitude x)) = magnitude x := magnitude_ofMagnitude hx
  have hy' : magnitude (ofMagnitude false (magnitude y)) = magnitude y := magnitude_ofMagnitude hy
  rw [abs_eq hx, abs_eq hy, le_iff_ordinal (hx'.trans_le hx) (hy'.trans_le hy), ordinal, ordinal, hx', hy',
    isNegative_ofMagnitude hx, isNegative_ofMagnitude hy]
  exact Int.ofNat_le

theorem value?_of_lt (h : magnitude x < infinity) : value? x = some (valueAt (ordinal x)) := by
  rw [value?_eq, parts_of_lt h, ordinal]
  cases isNegative x with
  | true => simp [signed, valueAt_neg, valueAt_natCast, absolute]
  | false => simp [signed, valueAt_natCast, absolute]

theorem value?_zero : value? 0 = some 0 := by
  rw [value?_of_lt (by decide +kernel), ordinal_zero, valueAt_zero]

theorem lt_infinity_of_value? (h : value? x = some p) : magnitude x < infinity := by
  obtain ⟨_, _, _, hlt⟩ | ⟨hparts, _⟩ | hparts := parts_cases x
  · exact hlt
  · rw [value?_eq, hparts] at h
    cases h
  · rw [value?_eq, hparts] at h
    cases h

theorem valueAt_ordinal (h : value? x = some p) : valueAt (ordinal x) = p := by
  rw [value?_of_lt (lt_infinity_of_value? h)] at h
  exact Option.some.inj h

theorem parts_of_value? (h : value? x = some p) :
    ∃ m e, parts x = .finite (isNegative x) m e ∧ (signed (isNegative x) m : ℚ) * 2 ^ e = p := by
  have hparts := parts_of_lt (lt_infinity_of_value? h)
  rw [value?_eq, hparts] at h
  exact ⟨_, _, hparts, Option.some.inj h⟩

theorem magnitude_eq_zero_iff (h : value? x = some p) : magnitude x = 0 ↔ p = 0 := by
  rw [← valueAt_ordinal h, valueAt_eq_zero_iff, ← Int.natAbs_eq_zero, natAbs_ordinal]

theorem nearestTo_of_value? (h : value? x = some p) : nearestTo p = magnitude x := by
  apply nearestTo_eq (lt_infinity_of_value? h)
  rw [← valueAt_ordinal h, abs_valueAt, natAbs_ordinal, absolute]

theorem isNegative_iff (h : value? x = some p) (hp : p ≠ 0) : isNegative x = true ↔ p < 0 := by
  have hne : magnitude x ≠ 0 := mt (magnitude_eq_zero_iff h).1 hp
  rw [← valueAt_ordinal h, ← valueAt_zero, valueAt_strictMono.lt_iff_lt, ordinal]
  cases isNegative x with
  | true => exact iff_of_true rfl (neg_lt_zero.2 (by omega))
  | false => exact iff_of_false Bool.false_ne_true (not_lt.2 (Int.natCast_nonneg _))

theorem lt_iff_value (hx : value? x = some p) (hy : value? y = some q) : x < y ↔ p < q := by
  rw [lt_iff_ordinal (lt_infinity_of_value? hx).le (lt_infinity_of_value? hy).le, ← valueAt_ordinal hx,
    ← valueAt_ordinal hy, valueAt_strictMono.lt_iff_lt]

theorem le_iff_value (hx : value? x = some p) (hy : value? y = some q) : x ≤ y ↔ p ≤ q := by
  rw [le_iff_ordinal (lt_infinity_of_value? hx).le (lt_infinity_of_value? hy).le, ← valueAt_ordinal hx,
    ← valueAt_ordinal hy, valueAt_strictMono.le_iff_le]

theorem beq_iff_value (hx : value? x = some p) (hy : value? y = some q) : (x == y) = true ↔ p = q := by
  rw [beq_iff_ordinal (lt_infinity_of_value? hx).le (lt_infinity_of_value? hy).le, ← valueAt_ordinal hx,
    ← valueAt_ordinal hy, valueAt_strictMono.injective.eq_iff]

end Floats

end ReversePolish.Number
