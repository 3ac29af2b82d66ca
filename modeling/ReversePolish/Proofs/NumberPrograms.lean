import ReversePolish.Proofs.FloatValue
import ReversePolish.Proofs.Rendering

namespace ReversePolish

theorem Vocabulary.find?_foldl_insert {ops : List Operation} {v : Vocabulary} {word : String}
    {op : Operation}
    (h : (ops.foldl (fun v op => v.insert op.symbol op) v).find? word = some op) :
    word = op.symbol ∨ v.find? word = some op := by
  induction ops generalizing v with
  | nil => exact .inr h
  | cons first ops ih =>
    obtain hword | hfind := ih h
    · exact .inl hword
    · rw [find?_insert] at hfind
      split at hfind
      · next hsymbol =>
        cases hfind
        exact .inl hsymbol.symm
      · exact .inr hfind

theorem Vocabulary.symbol_of_find?_standard {word : String} {op : Operation}
    (h : standard.find? word = some op) : word = op.symbol := by
  obtain hword | hempty := find?_foldl_insert h
  · exact hword
  · simp [find?] at hempty

theorem Operation.read?_symbol (op : Operation) : Number.read? op.symbol = none := by
  cases op <;> rfl

theorem Vocabulary.find?_standard_of_read? {word : String} {x : Float}
    (h : Number.read? word = some x) : standard.find? word = none := by
  cases hfind : standard.find? word with
  | none => rfl
  | some op =>
    rw [symbol_of_find?_standard hfind, Operation.read?_symbol] at h
    cases h

theorem Number.words_format (x : Float) : words (format x) = [format x] := by
  refine words_of_unbroken (isWord_format x).ne_nil fun c hc => ?_
  obtain h | rfl | rfl := plain_format x c hc
  · simp only [isBlank, Bool.or_eq_false_iff, beq_eq_false_iff_ne]
    refine ⟨⟨⟨⟨?_, ?_⟩, ?_⟩, ?_⟩, ?_⟩ <;> rintro rfl <;> cases h
  · rfl
  · rfl

theorem Program.read_format {x y : Float} (h : Number.read? (Number.format x) = some y) :
    Program.read .standard (Number.format x) = .ok ⟨#[.num y], 0⟩ := by
  have hpush : Assembler.push .standard (Number.format x) {} = .ok (Assembler.add {} (.num y) 0) := by
    simp only [Assembler.push, Vocabulary.find?_standard_of_read? h, h]
  rw [Program.read, Number.words_format, List.foldlM_cons, hpush]
  rfl

/-- A number that is written out and read again is itself, bit by bit, and what is no number stays
none. So numbers that are written alike are one. -/
theorem number_texts_read_back (x : Float) :
    (x.isNaN = false → Program.read .standard (Number.format x) = .ok ⟨#[.num x], 0⟩) ∧
    (x.isNaN = true → ∃ y, y.isNaN = true ∧
      Program.read .standard (Number.format x) = .ok ⟨#[.num y], 0⟩) ∧
    ∀ y, Number.format x = Number.format y → x = y ∨ x.isNaN = true ∧ y.isNaN = true := by
  refine ⟨fun hx => ?_, fun hx => ?_, fun y h => ?_⟩
  · have hparts : Number.parts x ≠ .nan := by
      rw [Ne, ← Number.isNaN_iff, hx]
      exact Bool.false_ne_true
    exact Program.read_format (Number.read?_format hparts)
  · obtain ⟨y, hread, hnan⟩ := Number.exists_read?_format_of_nan (Number.isNaN_iff.1 hx)
    exact ⟨y, Number.isNaN_iff.2 hnan, Program.read_format hread⟩
  · rw [Number.isNaN_iff, Number.isNaN_iff]
    exact Number.eq_or_nan_of_format_eq h

-- On both sides of where the layout changes, the least number, the greatest, and a zero with a sign.
example : ∀ x ∈ [0.0001, 1e-5, 1e15, 1e16, 5e-324, 1.7976931348623157e308, -0.0, -1.0 / 0.0],
    Program.read .standard (Number.format x) = .ok ⟨#[.num x], 0⟩ := by
  decide +kernel

end ReversePolish
