import Mathlib
import ReversePolish.Number.Integer

namespace ReversePolish.Number

-- The laws of floats come with the library as a whole only, and with no part of it.

theorem fractions_eq : fractions = 4503599627370496 := rfl

theorem signBit_eq : signBit = 9223372036854775808 := rfl

theorem infinity_eq : infinity = 9218868437227405312 := rfl

section Bits

variable {negative : Bool} {bits : Nat}

theorem toBits_ofBits {b : UInt64} (hb : b.toNat % signBit ≤ infinity) :
    (Float.ofBits b).toBits = b := by
  have hvalid : Float.Model.Format.binary64.Valid b.toBitVec := by
    constructor
    intro hexponent hmantissa
    have hexponent : b.toNat / 2 ^ 52 % 2 ^ 11 = 2047 := by
      rw [Float.Model.UnpackedFloat.unpackExponent_def] at hexponent
      have h := congrArg BitVec.toNat hexponent
      rw [BitVec.extractLsb'_toNat, Nat.shiftRight_eq_div_pow] at h
      exact h
    have hmantissa : b.toNat % 2 ^ 52 ≠ 0 := by
      intro h
      apply hmantissa
      rw [Float.Model.UnpackedFloat.unpackMantissa_def]
      apply BitVec.eq_of_toNat_eq
      rw [BitVec.extractLsb'_toNat, Nat.shiftRight_zero]
      exact h
    rw [signBit_eq, infinity_eq] at hb
    omega
  exact congrArg UInt64.ofBitVec (Float.Model.UnpackedFloat.pack_unpack_of_valid hvalid)

theorem toNat_toBits_ofMagnitude (h : bits ≤ infinity) :
    (ofMagnitude negative bits).toBits.toNat = if negative then signBit + bits else bits := by
  have hword : (UInt64.ofNat (if negative then signBit + bits else bits)).toNat =
      if negative then signBit + bits else bits := by
    rw [UInt64.toNat_ofNat']
    apply Nat.mod_eq_of_lt
    rw [infinity_eq] at h
    rw [signBit_eq]
    split <;> omega
  rw [ofMagnitude, toBits_ofBits, hword]
  rw [hword]
  rw [infinity_eq] at h ⊢
  rw [signBit_eq]
  split <;> omega

theorem magnitude_ofMagnitude (h : bits ≤ infinity) :
    magnitude (ofMagnitude negative bits) = bits := by
  rw [magnitude, toNat_toBits_ofMagnitude h]
  rw [infinity_eq] at h
  rw [signBit_eq]
  split <;> omega

theorem isNegative_ofMagnitude (h : bits ≤ infinity) :
    isNegative (ofMagnitude negative bits) = negative := by
  rw [isNegative, toNat_toBits_ofMagnitude h]
  rw [infinity_eq] at h
  cases negative with
  | true => simp
  | false =>
    simp [signBit_eq]
    omega

theorem parts_of_lt {x : Float} (h : magnitude x < infinity) :
    parts x = .finite (isNegative x) (significand (magnitude x)) (exponent (magnitude x)) :=
  if_pos h

theorem parts_ofMagnitude (h : bits < infinity) :
    parts (ofMagnitude negative bits) = .finite negative (significand bits) (exponent bits) := by
  have hmagnitude : magnitude (ofMagnitude negative bits) = bits := magnitude_ofMagnitude h.le
  rw [parts_of_lt (hmagnitude.trans_lt h), hmagnitude, isNegative_ofMagnitude h.le]

theorem ofMagnitude_magnitude (x : Float) : ofMagnitude (isNegative x) (magnitude x) = x := by
  have hlt : x.toBits.toNat < 2 ^ 64 := x.toBits.toNat_lt
  have hbits : (if isNegative x then signBit + magnitude x else magnitude x) = x.toBits.toNat := by
    rw [magnitude]
    cases h : isNegative x with
    | true =>
      have hle := of_decide_eq_true h
      rw [if_pos rfl]
      rw [signBit_eq] at hle ⊢
      omega
    | false =>
      have hle := of_decide_eq_false h
      rw [if_neg Bool.false_ne_true]
      rw [signBit_eq] at hle ⊢
      omega
  rw [ofMagnitude, hbits, UInt64.ofNat_toNat, Float.ofBits_toBits]

theorem parts_cases (x : Float) :
    (∃ m e, parts x = .finite (isNegative x) m e ∧ magnitude x < infinity) ∨
      parts x = .infinite (isNegative x) ∧ magnitude x = infinity ∨ parts x = .nan := by
  simp only [parts]
  split
  · next h => exact .inl ⟨_, _, rfl, h⟩
  · split
    · next h => exact .inr (.inl ⟨rfl, h⟩)
    · exact .inr (.inr rfl)

end Bits

section Equality

variable {x y : Float}

theorem beq_iff : (x == y) = true ↔
    x.isNaN = false ∧ y.isNaN = false ∧ (x = y ∨ x = 0 ∧ y = -0 ∨ x = -0 ∧ y = 0) := by
  simp only [Float.beq_iff_ne_nan_and_eq, Float.isNaN_eq_decide_eq_nan, decide_eq_false_iff_not, ne_eq]

theorem beq_self_iff : (x == x) = true ↔ x.isNaN = false := by
  rw [Float.beq_self_iff, Float.isNaN_eq_decide_eq_nan, decide_eq_false_iff_not]

end Equality

end ReversePolish.Number
