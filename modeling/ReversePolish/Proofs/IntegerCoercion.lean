import ReversePolish.Proofs.ArithmeticLaws
import ReversePolish.Proofs.FloatArithmetic

namespace ReversePolish

def InRange (i : Int) : Prop :=
  -2 ^ 63 ≤ i ∧ i < 2 ^ 63

instance (i : Int) : Decidable (InRange i) :=
  inferInstanceAs (Decidable (_ ∧ _))

theorem inRange_iff {i : Int} :
    InRange i ↔ -9223372036854775808 ≤ i ∧ i < 9223372036854775808 := by
  norm_num [InRange]

namespace Number

variable {x : Float} {i : Int}

theorem value?_fract (h : magnitude x < infinity) : value? (fract x) =
    some ((signed (isNegative x) (significand (magnitude x) % power 2 (-exponent (magnitude x))) : ℚ) *
      2 ^ exponent (magnitude x)) := by
  obtain ⟨hlt, hle, _⟩ := canonical (magnitude x)
  simp only [fract, parts_of_lt h]
  exact value?_ofDyadic ((Nat.mod_le _ _).trans_lt hlt) hle (exponent_le h)

theorem toInteger?_eq_none_iff_fract :
    toInteger? x = none ↔ (!x.isFinite || fract x != 0.0) = true := by
  by_cases h : magnitude x < infinity
  · have hfinite : x.isFinite = true := isFinite_iff.2 ⟨_, value?_of_lt h⟩
    have hzero : value? 0.0 = some 0 := value?_zero
    have hpos : (2 : ℚ) ^ exponent (magnitude x) ≠ 0 := by positivity
    rw [hfinite, Bool.not_true, Bool.false_or, bne, Bool.not_eq_true', ← Bool.not_eq_true,
      beq_iff_value (value?_fract h) hzero, mul_eq_zero, or_iff_left hpos, Int.cast_eq_zero,
      signed_eq_zero_iff]
    simp only [toInteger?, parts_of_lt h]
    split
    · next hmod => exact iff_of_false (by simp) (not_not.2 hmod)
    · next hmod => exact iff_of_true rfl hmod
  · have hfinite : x.isFinite = false := by
      rw [← Bool.not_eq_true, isFinite_iff]
      rintro ⟨q, hq⟩
      exact h (lt_infinity_of_value? hq)
    rw [hfinite]
    refine iff_of_true (Option.eq_none_iff_forall_ne_some.2 fun i hi => h ?_) rfl
    exact lt_infinity_of_value? (toInteger?_eq_some_iff.1 hi)

theorem truncate_of_inRange (h : toInteger? x = some i) (hi : InRange i) : truncate x = i := by
  rw [inRange_iff] at hi
  simp only [toInteger?] at h
  split at h
  · next hparts =>
    split at h
    · cases h
      simp only [truncate, hparts]
      omega
    · cases h
  · cases h

theorem inRange_iff_value (h : toInteger? x = some i) :
    -9223372036854775808.0 ≤ x ∧ x < 9223372036854775808.0 ↔ InRange i := by
  have hlower : value? (-9223372036854775808.0) = some ((-2 ^ 63 : Int) : ℚ) :=
    toInteger?_eq_some_iff.1 (by decide +kernel)
  have hupper : value? 9223372036854775808.0 = some ((2 ^ 63 : Int) : ℚ) :=
    toInteger?_eq_some_iff.1 (by decide +kernel)
  have hx := toInteger?_eq_some_iff.1 h
  rw [le_iff_value hlower hx, lt_iff_value hx hupper, Int.cast_le, Int.cast_lt, InRange]

end Number

namespace Value

variable {v : Value} {cause : Cause}

inductive Unfit : Value → Cause → Prop
  | kind {w} : (∀ x, w ≠ .number x) → Unfit w (.typeMismatch .number w.kind)
  | fraction {x} : Number.toInteger? x = none → Unfit (.number x) (.notAnInteger x)
  | range {x i} : Number.toInteger? x = some i → ¬ InRange i →
      Unfit (.number x) (.integerOutOfRange x)

theorem toInteger_number (x : Float) : (number x).toInteger =
    match Number.toInteger? x with
    | none => .error (.notAnInteger x)
    | some i => if InRange i then .ok i else .error (.integerOutOfRange x) := by
  change (if (!x.isFinite || Number.fract x != 0.0) = true then _ else _) = _
  cases h : Number.toInteger? x with
  | none => rw [if_pos (Number.toInteger?_eq_none_iff_fract.1 h)]
  | some i =>
    have hwhole : ¬ (!x.isFinite || Number.fract x != 0.0) = true := by
      rw [← Number.toInteger?_eq_none_iff_fract, h]
      exact Option.some_ne_none i
    rw [if_neg hwhole]
    by_cases hi : InRange i
    · rw [if_pos ((Number.inRange_iff_value h).2 hi), Number.truncate_of_inRange h hi]
      exact (if_pos hi).symm
    · rw [if_neg (mt (Number.inRange_iff_value h).1 hi)]
      exact (if_neg hi).symm

theorem toInteger_eq_ok_iff {i : Int} : v.toInteger = .ok i ↔
    ∃ x, v = .number x ∧ Number.toInteger? x = some i ∧ InRange i := by
  cases v with
  | number x =>
    rw [toInteger_number]
    simp only [Value.number.injEq, exists_eq_left']
    cases Number.toInteger? x with
    | none => simp
    | some j =>
      simp only [Option.some.injEq]
      constructor
      · intro h
        split at h
        · next hj =>
          cases h
          exact ⟨rfl, hj⟩
        · cases h
      · rintro ⟨rfl, hj⟩
        exact if_pos hj
  | _ => simp [toInteger, toNumber, bind, Except.bind]

theorem toInteger_eq_error_iff : v.toInteger = .error cause ↔ v.Unfit cause := by
  constructor
  · intro h
    cases v with
    | number x =>
      rw [toInteger_number] at h
      split at h
      · next hnone =>
        cases h
        exact .fraction hnone
      · next i hsome =>
        split at h
        · cases h
        · next hrange =>
          cases h
          exact .range hsome hrange
    | boolean | array | deferred | nop =>
      cases h
      exact .kind nofun
  · rintro (hv | hnone | ⟨hsome, hrange⟩)
    · cases v with
      | number x => exact absurd rfl (hv x)
      | boolean | array | deferred | nop => rfl
    · simp only [toInteger_number, hnone]
    · simp only [toInteger_number, hsome]
      exact if_neg hrange

end Value

/-- Nothing is rounded, cut off or forced into the range to make an integer of a value. -/
theorem integer_coercion_is_exact (v : Value) :
    (∀ i, v.toInteger = .ok i ↔ ∃ x, v = .number x ∧ Number.value? x = some (i : ℚ) ∧ InRange i) ∧
    (∀ expected got, v.toInteger = .error (.typeMismatch expected got) ↔
      (∀ x, v ≠ .number x) ∧ expected = .number ∧ got = v.kind) ∧
    (∀ x, v.toInteger = .error (.notAnInteger x) ↔ v = .number x ∧
      (x.isNaN = true ∨ x.isInf = true ∨ ∃ q, Number.value? x = some q ∧ Int.fract q ≠ 0)) ∧
    (∀ x, v.toInteger = .error (.integerOutOfRange x) ↔
      v = .number x ∧ ∃ i : Int, Number.value? x = some (i : ℚ) ∧ ¬ InRange i) ∧
    ∀ cause, v.toInteger = .error cause → (∃ expected got, cause = .typeMismatch expected got) ∨
      (∃ x, cause = .notAnInteger x) ∨ ∃ x, cause = .integerOutOfRange x := by
  simp only [Value.toInteger_eq_error_iff, ← Number.toInteger?_eq_some_iff,
    ← Number.toInteger?_eq_none_iff]
  refine ⟨?whole, ?kind, ?fraction, ?range, ?only⟩
  case whole =>
    intro i
    rw [Value.toInteger_eq_ok_iff]
  case kind =>
    intro expected got
    constructor
    · rintro ⟨hv⟩
      exact ⟨hv, rfl, rfl⟩
    · rintro ⟨hv, rfl, rfl⟩
      exact .kind hv
  case fraction =>
    intro x
    constructor
    · rintro (_ | hnone | _)
      exact ⟨rfl, hnone⟩
    · rintro ⟨rfl, hnone⟩
      exact .fraction hnone
  case range =>
    intro x
    constructor
    · rintro (_ | _ | ⟨hsome, hrange⟩)
      exact ⟨rfl, _, hsome, hrange⟩
    · rintro ⟨rfl, i, hsome, hrange⟩
      exact .range hsome hrange
  case only =>
    rintro cause (_ | _ | _)
    · exact .inl ⟨_, _, rfl⟩
    · exact .inr (.inl ⟨_, rfl⟩)
    · exact .inr (.inr ⟨_, rfl⟩)

-- The least integer is one, the next power of two is none, and both zeros are zero.
example : (Value.number (-0.0)).toInteger = .ok 0 ∧
    (Value.number (-9223372036854775808.0)).toInteger = .ok (-9223372036854775808) ∧
    (Value.number 9223372036854775808.0).toInteger =
      .error (.integerOutOfRange 9223372036854775808.0) := by
  decide +kernel

end ReversePolish
