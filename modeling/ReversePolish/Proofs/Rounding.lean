import ReversePolish.Number.Decimal
import ReversePolish.Proofs.IntegerLaws

namespace ReversePolish.Number

section Ratio

variable {b num den num' den' n d n' k : Nat} {e : Int}

theorem power_pos (hb : 0 < b) (e : Int) : 0 < power b e :=
  Nat.pow_pos hb

theorem power_div_power (b : Nat) (e : Int) : (power b e : ℚ) / power b (-e) = (b : ℚ) ^ e := by
  obtain ⟨k, rfl | rfl⟩ := e.eq_nat_or_neg
  · simp [power]
  · simp [power]

theorem ratio_dyadic (m : Nat) (e : Int) :
    ((m * power 2 e : Nat) : ℚ) / power 2 (-e) = m * 2 ^ e := by
  rw [Nat.cast_mul, mul_div_assoc, power_div_power]
  norm_num

theorem div_lt_zpow_iff (hd : 0 < den) :
    (num : ℚ) / den < 2 ^ e ↔ num * power 2 (-e) < den * power 2 e := by
  have hden : (0 : ℚ) < den := by exact_mod_cast hd
  have hpower : (0 : ℚ) < power 2 (-e) := by exact_mod_cast power_pos Nat.two_pos (-e)
  have htwo : ((2 : Nat) : ℚ) ^ e = 2 ^ e := by norm_num
  rw [← htwo, ← power_div_power 2, div_lt_div_iff₀ hden hpower, mul_comm (power 2 e : ℚ)]
  exact_mod_cast Iff.rfl

theorem zpow_log2_le (hn : n ≠ 0) : (2 : ℚ) ^ (n.log2 : Int) ≤ n := by
  rw [zpow_natCast]
  exact_mod_cast Nat.log2_self_le hn

theorem lt_zpow_log2 (n : Nat) : (n : ℚ) < 2 ^ ((n.log2 : Int) + 1) := by
  have h : n < 2 ^ (n.log2 + 1) := Nat.lt_log2_self
  exact_mod_cast h

theorem floorLog_spec (hn : num ≠ 0) (hd : 0 < den) :
    (2 : ℚ) ^ floorLog num den ≤ num / den ∧ (num : ℚ) / den < 2 ^ (floorLog num den + 1) := by
  have hden : (0 : ℚ) < den := by exact_mod_cast hd
  have hlower : (2 : ℚ) ^ ((num.log2 : Int) - den.log2 - 1) ≤ num / den := by
    rw [le_div_iff₀ hden]
    calc (2 : ℚ) ^ ((num.log2 : Int) - den.log2 - 1) * den
        ≤ 2 ^ ((num.log2 : Int) - den.log2 - 1) * 2 ^ ((den.log2 : Int) + 1) :=
          mul_le_mul_of_nonneg_left (lt_zpow_log2 den).le (by positivity)
      _ = 2 ^ (num.log2 : Int) := by rw [← zpow_add₀ two_ne_zero]; congr 1; ring
      _ ≤ num := zpow_log2_le hn
  have hupper : (num : ℚ) / den < 2 ^ ((num.log2 : Int) - den.log2 + 1) := by
    rw [div_lt_iff₀ hden]
    calc (num : ℚ) < 2 ^ ((num.log2 : Int) + 1) := lt_zpow_log2 num
      _ = 2 ^ ((num.log2 : Int) - den.log2 + 1) * 2 ^ (den.log2 : Int) := by
          rw [← zpow_add₀ two_ne_zero]; congr 1; ring
      _ ≤ 2 ^ ((num.log2 : Int) - den.log2 + 1) * den :=
          mul_le_mul_of_nonneg_left (zpow_log2_le hd.ne') (by positivity)
  rw [floorLog]
  simp only [← div_lt_zpow_iff hd]
  split
  · next hlt => exact ⟨hlower, by rwa [sub_add_cancel]⟩
  · next hge => exact ⟨not_lt.1 hge, hupper⟩

theorem le_floorLog (hn : num ≠ 0) (hd : 0 < den) (h : (2 : ℚ) ^ e ≤ num / den) :
    e ≤ floorLog num den :=
  Int.le_of_lt_add_one ((zpow_lt_zpow_iff_right₀ one_lt_two).1 (h.trans_lt (floorLog_spec hn hd).2))

theorem floorLog_lt (hn : num ≠ 0) (hd : 0 < den) (h : (num : ℚ) / den < 2 ^ e) :
    floorLog num den < e :=
  (zpow_lt_zpow_iff_right₀ one_lt_two).1 ((floorLog_spec hn hd).1.trans_lt h)

theorem floorLog_eq (hn : num ≠ 0) (hd : 0 < den) (hlower : (2 : ℚ) ^ e ≤ num / den)
    (hupper : (num : ℚ) / den < 2 ^ (e + 1)) : floorLog num den = e :=
  le_antisymm (Int.le_of_lt_add_one (floorLog_lt hn hd hupper)) (le_floorLog hn hd hlower)

theorem roundDiv_le_roundDiv (h : n ≤ n') : roundDiv n d ≤ roundDiv n' d := by
  obtain hlt | heq := Nat.lt_or_eq_of_le (Nat.div_le_div_right (c := d) h)
  · calc roundDiv n d ≤ n / d + 1 := roundDiv_le n d
      _ ≤ n' / d := hlt
      _ ≤ roundDiv n' d := div_le_roundDiv n' d
  · -- The quotients are the same, so the remainders are ordered, and a tie goes the same way.
    have hdiv := Nat.div_add_mod n d
    have hdiv' := Nat.div_add_mod n' d
    rw [heq] at hdiv
    simp only [roundDiv, heq]
    split <;> split <;> omega

theorem roundDiv_mul_mul {k : Nat} (hk : 0 < k) : roundDiv (k * n) (k * d) = roundDiv n d := by
  have hcond : ∀ r, (2 * (k * r) < k * d ↔ 2 * r < d) ∧ (2 * (k * r) = k * d ↔ 2 * r = d) := by
    intro r
    rw [Nat.mul_left_comm]
    exact ⟨Nat.mul_lt_mul_left hk, Nat.mul_right_inj hk.ne'⟩
  simp only [roundDiv, Nat.mul_div_mul_left n d hk, Nat.mul_mod_mul_left, hcond]

theorem roundDiv_mono (hd : 0 < den) (hd' : 0 < den') (h : (num : ℚ) / den ≤ num' / den') (e : Int) :
    roundDiv (num * power 2 (-e)) (den * power 2 e) ≤
      roundDiv (num' * power 2 (-e)) (den' * power 2 e) := by
  have hmul : num * den' ≤ num' * den := by
    have hden : (0 : ℚ) < den := by exact_mod_cast hd
    have hden' : (0 : ℚ) < den' := by exact_mod_cast hd'
    rw [div_le_div_iff₀ hden hden'] at h
    exact_mod_cast h
  rw [← roundDiv_mul_mul hd', ← roundDiv_mul_mul (n := num' * power 2 (-e)) hd,
    Nat.mul_left_comm den' den]
  apply roundDiv_le_roundDiv
  calc den' * (num * power 2 (-e)) = num * den' * power 2 (-e) := by ring
    _ ≤ num' * den * power 2 (-e) := Nat.mul_le_mul_right _ hmul
    _ = den * (num' * power 2 (-e)) := by ring

theorem roundDiv_dyadic (m : Nat) (e : Int) :
    roundDiv (m * power 2 e * power 2 (-e)) (power 2 (-e) * power 2 e) = m := by
  rw [Nat.mul_assoc, Nat.mul_comm (power 2 e)]
  exact roundDiv_mul m (Nat.mul_pos (power_pos Nat.two_pos _) (power_pos Nat.two_pos _))

theorem roundDiv_le_of_le (hd : 0 < den) (h : (num : ℚ) / den ≤ k * 2 ^ e) :
    roundDiv (num * power 2 (-e)) (den * power 2 e) ≤ k := by
  rw [← ratio_dyadic] at h
  exact (roundDiv_mono hd (power_pos Nat.two_pos _) h e).trans_eq (roundDiv_dyadic k e)

theorem le_roundDiv_of_le (hd : 0 < den) (h : (k : ℚ) * 2 ^ e ≤ num / den) :
    k ≤ roundDiv (num * power 2 (-e)) (den * power 2 e) := by
  rw [← ratio_dyadic] at h
  exact (roundDiv_dyadic k e).symm.trans_le (roundDiv_mono (power_pos Nat.two_pos _) hd h e)

theorem nearest_mono (hd : 0 < den) (hd' : 0 < den') (h : (num : ℚ) / den ≤ num' / den') :
    nearest num den ≤ nearest num' den' := by
  by_cases hn : num = 0
  · rw [nearest, if_pos hn]
    exact Nat.zero_le _
  · have hn' : num' ≠ 0 := by
      rintro rfl
      have hpos : (0 : ℚ) < num / den := by positivity
      rw [Nat.cast_zero, zero_div] at h
      exact hpos.not_ge h
    obtain ⟨hle, hlt⟩ := floorLog_spec hn hd
    obtain ⟨hle', hlt'⟩ := floorLog_spec hn' hd'
    have hlog := le_floorLog hn' hd' (hle.trans h)
    simp only [nearest, if_neg hn, if_neg hn']
    apply min_le_min_right
    generalize floorLog num den = l at *
    generalize floorLog num' den' = l' at *
    obtain heq | hunit : max (-1074) (l - 52) = max (-1074) (l' - 52) ∨
        max (-1074) (l - 52) < l' - 52 ∧ max (-1074) (l' - 52) = l' - 52 := by omega
    · rw [heq]
      exact Nat.add_le_add_left (roundDiv_mono hd hd' h _) _
    · -- The significands lie on both sides of the power of two between the units.
      obtain ⟨hunit, heq⟩ := hunit
      rw [heq]
      have hupper : roundDiv (num * power 2 (-max (-1074) (l - 52)))
          (den * power 2 (max (-1074) (l - 52))) ≤ 2 * fractions := by
        apply roundDiv_le_of_le hd
        calc (num : ℚ) / den ≤ 2 ^ (l + 1) := hlt.le
          _ ≤ 2 ^ (53 + max (-1074) (l - 52)) := zpow_le_zpow_right₀ one_le_two (by omega)
          _ = (2 * fractions : Nat) * 2 ^ max (-1074) (l - 52) := by
            rw [zpow_add₀ two_ne_zero, fractions_eq]
            norm_num
      have hlower : fractions ≤ roundDiv (num' * power 2 (-(l' - 52))) (den' * power 2 (l' - 52)) := by
        apply le_roundDiv_of_le hd'
        calc (fractions : ℚ) * 2 ^ (l' - 52) = 2 ^ (52 + (l' - 52)) := by
              rw [zpow_add₀ two_ne_zero, fractions_eq]
              norm_num
          _ = 2 ^ l' := by rw [add_sub_cancel]
          _ ≤ num' / den' := hle'
      rw [fractions_eq] at hupper hlower ⊢
      omega

theorem nearest_congr (hd : 0 < den) (hd' : 0 < den') (h : (num : ℚ) / den = num' / den') :
    nearest num den = nearest num' den' :=
  le_antisymm (nearest_mono hd hd' h.le) (nearest_mono hd' hd h.ge)

end Ratio

section Dyadic

variable {bits : Nat}

structure Canonical (m : Nat) (e : Int) : Prop where
  lt : m < 2 * fractions
  le : -1074 ≤ e
  normal : fractions ≤ m ∨ e = -1074

theorem canonical (bits : Nat) : Canonical (significand bits) (exponent bits) := by
  constructor
  · rw [significand, fractions_eq]
    split <;> omega
  · rw [exponent, fractions_eq]
    omega
  · rw [significand, exponent, fractions_eq]
    split <;> omega

theorem significand_eq_zero_iff : significand bits = 0 ↔ bits = 0 := by
  rw [significand, fractions_eq]
  split <;> omega

theorem significand_ne_zero (h : bits ≠ 0) : significand bits ≠ 0 :=
  mt significand_eq_zero_iff.1 h

theorem add_significand (bits : Nat) :
    (exponent bits + 1074).toNat * fractions + significand bits = bits := by
  rw [significand, exponent, fractions_eq]
  split <;> omega

theorem exponent_le (h : bits < infinity) : exponent bits ≤ 971 := by
  rw [infinity_eq] at h
  rw [exponent, fractions_eq]
  omega

theorem floorLog_dyadic {m : Nat} (hm : m ≠ 0) (e : Int) :
    floorLog (m * power 2 e) (power 2 (-e)) = m.log2 + e := by
  have hpos := power_pos Nat.two_pos e
  have htwo : (0 : ℚ) < 2 ^ e := by positivity
  apply floorLog_eq (Nat.mul_ne_zero hm hpos.ne') (power_pos Nat.two_pos _)
  · rw [ratio_dyadic, zpow_add₀ two_ne_zero]
    exact mul_le_mul_of_nonneg_right (zpow_log2_le hm) htwo.le
  · rw [ratio_dyadic, add_right_comm, zpow_add₀ two_ne_zero]
    exact mul_lt_mul_of_pos_right (lt_zpow_log2 m) htwo

theorem nearest_dyadic (hbits : bits ≠ 0) (h : bits < infinity) :
    nearest (significand bits * power 2 (exponent bits)) (power 2 (-exponent bits)) = bits := by
  obtain ⟨hlt, hle, hnormal⟩ := canonical bits
  have hm := significand_ne_zero hbits
  have hnum : significand bits * power 2 (exponent bits) ≠ 0 :=
    Nat.mul_ne_zero hm (power_pos Nat.two_pos _).ne'
  have hunit : max (-1074) ((significand bits).log2 + exponent bits - 52) = exponent bits := by
    have hlog : (significand bits).log2 < 53 := (Nat.log2_lt hm).2 hlt
    have hlog' : fractions ≤ significand bits → 52 ≤ (significand bits).log2 := (Nat.le_log2 hm).2
    omega
  simp only [nearest, if_neg hnum, floorLog_dyadic hm, hunit, roundDiv_dyadic, add_significand]
  exact Nat.min_eq_left h.le

end Dyadic

section Rational

variable {p q : ℚ} {num den bits : Nat}

def nearestTo (q : ℚ) : Nat :=
  nearest q.num.natAbs q.den

theorem ratio_eq_abs (q : ℚ) : (q.num.natAbs : ℚ) / q.den = |q| := by
  rw [Nat.cast_natAbs, Int.cast_abs, ← Nat.abs_cast q.den, ← abs_div, Rat.num_div_den]

theorem nearest_eq_nearestTo (hd : 0 < den) (h : (num : ℚ) / den = |q|) :
    nearest num den = nearestTo q :=
  nearest_congr hd q.den_pos (by rw [h, ratio_eq_abs])

theorem nearestTo_mono (h : |p| ≤ |q|) : nearestTo p ≤ nearestTo q :=
  nearest_mono p.den_pos q.den_pos (by rwa [ratio_eq_abs, ratio_eq_abs])

theorem nearestTo_eq (h : bits < infinity) (hq : |q| = significand bits * 2 ^ exponent bits) :
    nearestTo q = bits := by
  rw [← nearest_eq_nearestTo (power_pos Nat.two_pos _) ((ratio_dyadic _ _).trans hq.symm)]
  by_cases hbits : bits = 0
  · rw [hbits]
    rfl
  · exact nearest_dyadic hbits h

end Rational

namespace Decimal

variable {d d' : Decimal} {bits : Nat}

def value (d : Decimal) : ℚ :=
  d.coefficient * 10 ^ d.exponent

theorem ratio_eq_value (d : Decimal) :
    ((d.coefficient * power 10 d.exponent : Nat) : ℚ) / power 10 (-d.exponent) = d.value := by
  rw [Nat.cast_mul, mul_div_assoc, power_div_power, value]
  norm_num

theorem nearest_congr (h : d.value = d'.value) : d.nearest = d'.nearest :=
  Number.nearest_congr (power_pos (by decide) _) (power_pos (by decide) _)
    (by rw [ratio_eq_value, ratio_eq_value, h])

theorem value_ofDyadic (m : Nat) (e : Int) : (ofDyadic m e).value = m * 2 ^ e := by
  obtain ⟨k, rfl | rfl⟩ := e.eq_nat_or_neg
  · simp [value, ofDyadic, power]
  · have hten : (10 : ℚ) ^ k = 2 ^ k * 5 ^ k := by rw [← mul_pow]; norm_num
    have hfive : (5 : ℚ) ^ k ≠ 0 := by positivity
    simp [value, ofDyadic, power, hten]
    field_simp

theorem onGrid?_cases {num den : Nat} {e : Int} (h : onGrid? num den bits e = some d) :
    d.nearest = bits ∧ d.exponent = e ∧ d.coefficient ≤ num * power 10 (-e) + 1 := by
  have hdiv := Nat.div_le_self (num * power 10 (-e)) (den * power 10 e)
  simp only [onGrid?] at h
  split at h
  · next hlower hupper =>
    obtain rfl := Option.some.inj h
    split
    · exact ⟨eq_of_beq hlower, rfl, Nat.le_succ_of_le hdiv⟩
    · exact ⟨eq_of_beq hupper, rfl, Nat.succ_le_succ hdiv⟩
  · next hlower _ =>
    obtain rfl := Option.some.inj h
    exact ⟨eq_of_beq hlower, rfl, Nat.le_succ_of_le hdiv⟩
  · next _ hupper =>
    obtain rfl := Option.some.inj h
    exact ⟨eq_of_beq hupper, rfl, Nat.succ_le_succ hdiv⟩
  · cases h

theorem shortest_cases (bits : Nat) :
    let num := significand bits * power 2 (Number.exponent bits)
    let den := power 2 (-Number.exponent bits)
    (∃ n < 17, onGrid? num den bits (floorLog num den - (n : Nat)) = some (shortest bits)) ∨
      shortest bits = ofDyadic (significand bits) (Number.exponent bits) := by
  intro num den
  have hshortest : shortest bits =
      ((List.range 17).findSome? fun n : Nat => onGrid? num den bits (floorLog num den - n)).getD
        (ofDyadic (significand bits) (Number.exponent bits)) := rfl
  generalize hns : List.range 17 = ns at hshortest
  cases h : ns.findSome? fun n : Nat => onGrid? num den bits (floorLog num den - n) with
  | none =>
    rw [h] at hshortest
    exact .inr hshortest
  | some d =>
    rw [h] at hshortest
    obtain ⟨n, hn, hgrid⟩ := List.exists_of_findSome?_eq_some h
    exact .inl ⟨n, List.mem_range.1 (hns ▸ hn), by rw [hshortest]; exact hgrid⟩

theorem nearest_shortest (hbits : bits ≠ 0) (h : bits < infinity) : (shortest bits).nearest = bits := by
  obtain ⟨n, _, hgrid⟩ | hexact := shortest_cases bits
  · exact (onGrid?_cases hgrid).1
  · refine Eq.trans ?_ (nearest_dyadic hbits h)
    apply Number.nearest_congr (power_pos (by decide) _) (power_pos (by decide) _)
    rw [hexact, ratio_eq_value, value_ofDyadic, ratio_dyadic]

theorem coefficient_shortest_ne_zero (hbits : bits ≠ 0) (h : bits < infinity) :
    (shortest bits).coefficient ≠ 0 := by
  intro hzero
  have hnearest := nearest_shortest hbits h
  rw [nearest, hzero, Nat.zero_mul] at hnearest
  exact hbits hnearest.symm

theorem power_le {b k : Nat} {e : Int} (hb : 0 < b) (hten : b ≤ 10) (he : e ≤ k) : power b e ≤ 10 ^ k :=
  (Nat.pow_le_pow_right hb (by omega)).trans (Nat.pow_le_pow_left hten k)

theorem significand_mul_lt (h : bits < infinity) :
    significand bits * power 2 (Number.exponent bits) < 10 ^ 1024 := by
  have hm : significand bits < 10 ^ 53 :=
    (canonical bits).lt.trans (by decide)
  have hp : power 2 (Number.exponent bits) ≤ 10 ^ 971 := power_le (by decide) (by decide) (exponent_le h)
  calc significand bits * power 2 (Number.exponent bits)
      < 10 ^ 53 * 10 ^ 971 := Nat.mul_lt_mul_of_lt_of_le hm hp (by positivity)
    _ = 10 ^ 1024 := by rw [← pow_add]

theorem log2_lt_of_lt_pow {n k : Nat} (hk : 0 < k) (h : n < 10 ^ k) : n.log2 < 4 * k := by
  obtain rfl | hn := Nat.eq_zero_or_pos n
  · rw [Nat.log2_zero]
    omega
  · refine (Nat.log2_lt hn.ne').2 (h.trans_le ?_)
    rw [pow_mul]
    exact Nat.pow_le_pow_left (by decide) k

theorem floorLog_bounds {num den : Nat} (hnum : num < 10 ^ 1024) (hden : den.log2 ≤ 1074) :
    -400 ≤ floorLog num den ∧ floorLog num den ≤ 1300 := by
  have hlog := log2_lt_of_lt_pow (by decide) hnum
  rw [floorLog]
  split <;> omega

theorem shortest_bounds (h : bits < infinity) :
    (shortest bits).coefficient < 10 ^ 3000 ∧ -2000 ≤ (shortest bits).exponent ∧
      (shortest bits).exponent ≤ 2000 := by
  have hnum := significand_mul_lt h
  have hle := (canonical bits).le
  have hpow : ∀ k : Nat, k < 3000 → 10 ^ k < 10 ^ 3000 := fun k => pow_lt_pow_right₀ (by decide)
  obtain ⟨n, hn, hgrid⟩ | hexact := shortest_cases bits
  · have hden : (power 2 (-Number.exponent bits)).log2 ≤ 1074 := by
      change (2 ^ (-Number.exponent bits).toNat).log2 ≤ 1074
      rw [Nat.log2_two_pow]
      omega
    obtain ⟨hlower, hupper⟩ := floorLog_bounds hnum hden
    obtain ⟨_, hexponent, hcoefficient⟩ := onGrid?_cases hgrid
    rw [hexponent]
    refine ⟨?_, by omega, by omega⟩
    have hp : power 10 (-(shortest bits).exponent) ≤ 10 ^ 420 :=
      power_le (by decide) (by decide) (by rw [hexponent]; omega)
    rw [← hexponent] at hcoefficient
    calc (shortest bits).coefficient
        ≤ significand bits * power 2 (Number.exponent bits) * power 10 (-(shortest bits).exponent) + 1 :=
          hcoefficient
      _ ≤ 10 ^ 1024 * 10 ^ 420 := Nat.mul_lt_mul_of_lt_of_le hnum hp (by positivity)
      _ = 10 ^ 1444 := by rw [← pow_add]
      _ < 10 ^ 3000 := hpow _ (by decide)
  · rw [hexact]
    refine ⟨?_, ?_, ?_⟩
    · have hp : power 5 (-Number.exponent bits) ≤ 10 ^ 1074 := power_le (by decide) (by decide) (by omega)
      calc significand bits * power 2 (Number.exponent bits) * power 5 (-Number.exponent bits)
          < 10 ^ 1024 * 10 ^ 1074 := Nat.mul_lt_mul_of_lt_of_le hnum hp (by positivity)
        _ = 10 ^ 2098 := by rw [← pow_add]
        _ < 10 ^ 3000 := hpow _ (by decide)
    · change -2000 ≤ min (Number.exponent bits) 0
      omega
    · change min (Number.exponent bits) 0 ≤ 2000
      omega

end Decimal

end ReversePolish.Number
