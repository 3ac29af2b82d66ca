import ReversePolish.Proofs.FloatLaws

namespace ReversePolish.Number

/-- The integer that a float is, if it is finite and has no fractional part. -/
def toInteger? (x : Float) : Option Int :=
  match parts x with
  | .finite negative m e =>
    let den := power 2 (-e)
    if m % den = 0 then some (signed negative (m * power 2 e / den)) else none
  | _ => none

section Rounding

variable {n d : Nat}

theorem roundDiv_mul (q : Nat) (hd : 0 < d) : roundDiv (q * d) d = q := by
  rw [roundDiv, Nat.mul_mod_left, Nat.mul_div_cancel q hd]
  exact if_pos (.inl hd)

theorem roundDiv_one (n : Nat) : roundDiv n 1 = n := by
  simpa using roundDiv_mul n Nat.one_pos

theorem div_le_roundDiv (n d : Nat) : n / d ≤ roundDiv n d := by
  simp only [roundDiv]
  split <;> omega

theorem roundDiv_le (n d : Nat) : roundDiv n d ≤ n / d + 1 := by
  simp only [roundDiv]
  split <;> omega

/-- The distance between the floats that lie about a number, if they are integers. -/
def spacing (n : Nat) : Nat :=
  2 ^ (n.log2 - 52)

def rounded (n : Nat) : Nat :=
  roundDiv n (spacing n) * spacing n

theorem spacing_pos (n : Nat) : 0 < spacing n :=
  Nat.two_pow_pos _

theorem rounded_eq_iff : rounded n = n ↔ spacing n ∣ n := by
  constructor
  · intro h
    exact ⟨roundDiv n (spacing n), by rw [Nat.mul_comm]; exact h.symm⟩
  · rintro ⟨q, hq⟩
    have hround := roundDiv_mul q (spacing_pos n)
    rw [Nat.mul_comm] at hq
    rw [← hq] at hround
    rw [rounded, hround, ← hq]

theorem spacing_dvd_iff : spacing n ∣ n ↔ ∃ m e, m < 2 ^ 53 ∧ n = m * 2 ^ e := by
  have hlt : n < 2 ^ (n.log2 + 1) := Nat.lt_log2_self
  constructor
  · rintro ⟨m, hm⟩
    refine ⟨m, n.log2 - 52, ?_, by rw [Nat.mul_comm]; exact hm⟩
    have hpow : 2 ^ (n.log2 + 1) ≤ 2 ^ (n.log2 - 52) * 2 ^ 53 := by
      rw [← Nat.pow_add]
      exact Nat.pow_le_pow_right Nat.two_pos (by omega)
    have hmul : spacing n * m < spacing n * 2 ^ 53 := hm ▸ lt_of_lt_of_le hlt hpow
    exact Nat.lt_of_mul_lt_mul_left hmul
  · rintro ⟨m, e, hm, rfl⟩
    obtain rfl | hpos := Nat.eq_zero_or_pos m
    · simp
    · apply Dvd.dvd.mul_left
      apply pow_dvd_pow
      have hne : m * 2 ^ e ≠ 0 := by positivity
      have hlog : (m * 2 ^ e).log2 < 53 + e := by
        rw [Nat.log2_lt hne, Nat.pow_add]
        exact Nat.mul_lt_mul_of_pos_right hm (Nat.two_pow_pos e)
      omega

def scaled (n : Nat) : Nat :=
  roundDiv (n * 2 ^ (52 - n.log2)) (spacing n)

theorem floorLog_one (hn : n ≠ 0) : floorLog n 1 = n.log2 := by
  have hle : 2 ^ n.log2 ≤ n := Nat.log2_self_le hn
  have hone : Nat.log2 1 = 0 := by decide
  simp [floorLog, power, hone, not_lt.2 hle]

theorem nearest_one (hn : n ≠ 0) :
    nearest n 1 = min ((n.log2 + 1022) * fractions + scaled n) infinity := by
  have hunit : max (-1074) ((n.log2 : Int) - 52) = n.log2 - 52 := by omega
  have hneg : (-((n.log2 : Int) - 52)).toNat = 52 - n.log2 := by omega
  have hpos : ((n.log2 : Int) - 52).toNat = n.log2 - 52 := by omega
  have hexponent : ((n.log2 : Int) - 52 + 1074).toNat = n.log2 + 1022 := by omega
  simp only [nearest, if_neg hn, floorLog_one hn, hunit, power, hneg, hpos, hexponent, Nat.one_mul]
  rfl

theorem scaled_bounds (hn : n ≠ 0) : fractions ≤ scaled n ∧ scaled n ≤ 2 * fractions := by
  have hpow : 2 ^ n.log2 * 2 ^ (52 - n.log2) = 2 ^ 52 * spacing n := by
    rw [spacing, ← Nat.pow_add, ← Nat.pow_add]
    congr 1
    omega
  have hle : 2 ^ 52 * spacing n ≤ n * 2 ^ (52 - n.log2) :=
    hpow ▸ Nat.mul_le_mul_right _ (Nat.log2_self_le hn)
  have hlt : n * 2 ^ (52 - n.log2) < 2 ^ 53 * spacing n := by
    calc n * 2 ^ (52 - n.log2) < 2 ^ (n.log2 + 1) * 2 ^ (52 - n.log2) :=
          Nat.mul_lt_mul_of_pos_right Nat.lt_log2_self (Nat.two_pow_pos _)
      _ = 2 * (2 ^ n.log2 * 2 ^ (52 - n.log2)) := by ring
      _ = 2 ^ 53 * spacing n := by rw [hpow]; ring
  have hdiv : 2 ^ 52 ≤ n * 2 ^ (52 - n.log2) / spacing n :=
    (Nat.le_div_iff_mul_le (spacing_pos n)).2 hle
  have hdiv' : n * 2 ^ (52 - n.log2) / spacing n < 2 ^ 53 :=
    (Nat.div_lt_iff_lt_mul (spacing_pos n)).2 hlt
  have hlower := div_le_roundDiv (n * 2 ^ (52 - n.log2)) (spacing n)
  have hupper := roundDiv_le (n * 2 ^ (52 - n.log2)) (spacing n)
  rw [scaled, fractions_eq]
  omega

theorem scaled_mul (n : Nat) : scaled n * spacing n = rounded n * 2 ^ (52 - n.log2) := by
  rw [scaled, rounded]
  obtain h | h := Nat.le_total n.log2 52
  · have hspacing : spacing n = 1 := by rw [spacing, Nat.sub_eq_zero_of_le h, Nat.pow_zero]
    rw [hspacing, roundDiv_one, roundDiv_one]
    ring
  · rw [Nat.sub_eq_zero_of_le h, Nat.pow_zero, Nat.mul_one, Nat.mul_one]

end Rounding

section Decoding

variable {negative : Bool} {bits k m n : Nat}

theorem significand_add (h : fractions ≤ m) (h' : m < 2 * fractions) :
    significand (k * fractions + m) = m := by
  rw [fractions_eq] at h h'
  rw [significand, fractions_eq]
  split <;> omega

theorem exponent_add (h : fractions ≤ m) (h' : m < 2 * fractions) :
    exponent (k * fractions + m) = k - 1074 := by
  rw [fractions_eq] at h h'
  rw [exponent, fractions_eq]
  omega

theorem power_exponent (k : Nat) : power 2 (((k + 1022 : Nat) : Int) - 1074) = 2 ^ (k - 52) := by
  have hexponent : (((k + 1022 : Nat) : Int) - 1074).toNat = k - 52 := by omega
  rw [power, hexponent]
  rfl

theorem power_neg_exponent (k : Nat) :
    power 2 (-(((k + 1022 : Nat) : Int) - 1074)) = 2 ^ (52 - k) := by
  have hexponent : (-(((k + 1022 : Nat) : Int) - 1074)).toNat = 52 - k := by omega
  rw [power, hexponent]
  rfl

theorem toInteger?_ofMagnitude (h : bits < infinity)
    (hn : significand bits * power 2 (exponent bits) = n * power 2 (-exponent bits)) :
    toInteger? (ofMagnitude negative bits) = some (signed negative n) := by
  have hpos : 0 < power 2 (-exponent bits) := Nat.two_pow_pos _
  have hmod : significand bits % power 2 (-exponent bits) = 0 := by
    obtain he | he := Int.le_total 0 (exponent bits)
    · rw [power, Int.toNat_of_nonpos (by omega)]
      exact Nat.mod_one _
    · have hone : power 2 (exponent bits) = 1 := by rw [power, Int.toNat_of_nonpos he]
      rw [hone, Nat.mul_one] at hn
      rw [hn, Nat.mul_mod_left]
  simp only [toInteger?, parts_ofMagnitude h, if_pos hmod, hn, Nat.mul_div_cancel n hpos]

theorem lt_infinity (hn : n ≠ 0) (h : n < 2 ^ 64) :
    (n.log2 + 1022) * fractions + scaled n < infinity := by
  have hlog : n.log2 < 64 := (Nat.log2_lt hn).2 h
  have hscaled := (scaled_bounds hn).2
  rw [fractions_eq] at hscaled
  rw [fractions_eq, infinity_eq]
  omega

theorem carry {x y l : Nat} (h : 2 * x * 2 ^ (l - 52) = y * 2 ^ (52 - l)) :
    x * 2 ^ (l + 1 - 52) = y * 2 ^ (52 - (l + 1)) := by
  obtain hl | hl := Nat.lt_or_ge l 52
  · have hexponent : 52 - l = 52 - (l + 1) + 1 := by omega
    rw [Nat.sub_eq_zero_of_le hl.le, Nat.pow_zero, hexponent, Nat.pow_succ, ← Nat.mul_assoc] at h
    rw [Nat.sub_eq_zero_of_le hl, Nat.pow_zero]
    omega
  · rw [Nat.sub_eq_zero_of_le hl, Nat.pow_zero, Nat.mul_assoc, Nat.mul_left_comm] at h
    rw [Nat.sub_add_comm hl, Nat.sub_eq_zero_of_le (Nat.le_succ_of_le hl), Nat.pow_succ,
      Nat.pow_zero, ← h]
    ring

theorem significand_nearest (hn : n ≠ 0) (h : n < 2 ^ 64) :
    significand (nearest n 1) * power 2 (exponent (nearest n 1)) =
      rounded n * power 2 (-exponent (nearest n 1)) := by
  obtain ⟨hlower, hupper⟩ := scaled_bounds hn
  have hscaled := scaled_mul n
  rw [nearest_one hn, Nat.min_eq_left (lt_infinity hn h).le]
  obtain hlt | heq := Nat.lt_or_eq_of_le hupper
  · rw [significand_add hlower hlt, exponent_add hlower hlt, power_exponent, power_neg_exponent]
    exact hscaled
  · -- The significand carries into the exponent.
    have hbits : (n.log2 + 1022) * fractions + scaled n = (n.log2 + 1 + 1022) * fractions + fractions := by
      rw [heq]
      ring
    have hlt : fractions < 2 * fractions := by decide
    rw [hbits, significand_add le_rfl hlt, exponent_add le_rfl hlt, power_exponent, power_neg_exponent]
    rw [heq, spacing] at hscaled
    exact carry hscaled

theorem nearest_one_lt (hn : n ≠ 0) (h : n < 2 ^ 64) : nearest n 1 < infinity := by
  rw [nearest_one hn, Nat.min_eq_left (lt_infinity hn h).le]
  exact lt_infinity hn h

theorem toInteger?_nearest (negative : Bool) (h : n < 2 ^ 64) :
    toInteger? (ofMagnitude negative (nearest n 1)) = some (signed negative (rounded n)) := by
  by_cases hn : n = 0
  · have hzero : significand (nearest 0 1) = 0 := rfl
    have hrounded : rounded 0 = 0 := rfl
    rw [hn]
    exact toInteger?_ofMagnitude (by decide) (by rw [hzero, hrounded, Nat.zero_mul, Nat.zero_mul])
  · exact toInteger?_ofMagnitude (nearest_one_lt hn h) (significand_nearest hn h)

/-- At most 53 significant bits. -/
def Exact (i : Int) : Prop :=
  ∃ m e, m < 2 ^ 53 ∧ i.natAbs = m * 2 ^ e

theorem toInteger?_ofInteger_eq_iff {i : Int} (h : i.natAbs < 2 ^ 64) :
    toInteger? (ofInteger i) = some i ↔ Exact i := by
  rw [ofInteger, ofRatio, toInteger?_nearest _ h, Exact, ← spacing_dvd_iff, ← rounded_eq_iff,
    Option.some.injEq, signed]
  by_cases hi : i < 0
  · simp [hi]
    omega
  · simp [hi]
    omega

theorem exact_of_natAbs_le {i : Int} (h : i.natAbs ≤ 2 ^ 53) : Exact i := by
  obtain hlt | heq := Nat.lt_or_eq_of_le h
  · exact ⟨i.natAbs, 0, hlt, by simp⟩
  · exact ⟨1, 53, by decide, by rw [heq, Nat.one_mul]⟩

end Decoding

end ReversePolish.Number
