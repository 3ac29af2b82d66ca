import ReversePolish.Number.Layout
import ReversePolish.Number.Literal
import ReversePolish.Proofs.Rounding

namespace ReversePolish.Number

def Stops (p : Char → Bool) (cs : List Char) : Prop :=
  ∀ c ∈ cs.head?, p c = false

section Runs

variable {p : Char → Bool} {run cs : List Char}

theorem stops_nil : Stops p [] := by
  rintro c ⟨⟩

theorem stops_cons {c : Char} (h : p c = false) : Stops p (c :: cs) := by
  rintro _ ⟨⟩
  exact h

theorem takeWhile_run (hrun : ∀ c ∈ run, p c = true) (hcs : Stops p cs) :
    (run ++ cs).takeWhile p = run := by
  rw [List.takeWhile_append_of_pos hrun]
  cases cs with
  | nil => simp
  | cons c cs => simp [hcs c rfl]

theorem dropWhile_run (hrun : ∀ c ∈ run, p c = true) (hcs : Stops p cs) :
    (run ++ cs).dropWhile p = cs := by
  rw [List.dropWhile_append_of_pos hrun]
  cases cs with
  | nil => rfl
  | cons c cs => simp [hcs c rfl]

end Runs

def Digits (cs : List Char) : Prop :=
  ∀ c ∈ cs, c.isDigit = true

namespace Digits

variable {ds ds' : List Char}

theorem append (h : Digits ds) (h' : Digits ds') : Digits (ds ++ ds') := by
  intro c hc
  obtain hc | hc := List.mem_append.1 hc
  · exact h c hc
  · exact h' c hc

theorem zeros (n : Nat) : Digits (List.replicate n '0') := by
  intro c hc
  rw [List.eq_of_mem_replicate hc]
  rfl

theorem toDigits (n : Nat) : Digits (Nat.toDigits 10 n) := fun _ hc =>
  Nat.isDigit_of_mem_toDigits (by decide) (by decide) hc

end Digits

namespace Literal

variable {whole part rest ds : List Char}

theorem decimal?_point (hwhole : Digits whole) (hne : whole ≠ []) (hpart : Digits part)
    (hrest : Stops Char.isDigit rest) :
    decimal? (whole ++ '.' :: (part ++ rest)) =
      (exponent? rest).map fun e => ⟨Nat.ofDigitChars 10 (whole ++ part) 0, e - part.length⟩ := by
  have hpoint : Stops Char.isDigit ('.' :: (part ++ rest)) := stops_cons rfl
  simp only [decimal?, takeWhile_run hwhole hpoint, dropWhile_run hwhole hpoint, fraction,
    takeWhile_run hpart hrest, dropWhile_run hpart hrest]
  exact if_neg fun h => hne (List.isEmpty_iff.1 h.1)

theorem decimal?_exponent (hwhole : Digits whole) (hne : whole ≠ []) :
    decimal? (whole ++ 'e' :: rest) =
      (exponent? ('e' :: rest)).map fun e => ⟨Nat.ofDigitChars 10 whole 0, e⟩ := by
  have hletter : Stops Char.isDigit ('e' :: rest) := stops_cons rfl
  have hfraction : fraction ('e' :: rest) = ([], 'e' :: rest) := rfl
  simp only [decimal?, takeWhile_run hwhole hletter, dropWhile_run hwhole hletter, hfraction,
    List.append_nil, List.length_nil, Nat.cast_zero, sub_zero]
  exact if_neg fun h => hne (List.isEmpty_iff.1 h.1)

theorem foldl_exponentValue {ds : List Char} : ∀ {e : Nat}, Nat.ofDigitChars 10 ds e < 65536 →
    ds.foldl (fun e c => if e < 65536 then 10 * e + (c.toNat - '0'.toNat) else e) e =
      Nat.ofDigitChars 10 ds e := by
  induction ds with
  | nil => exact fun _ => rfl
  | cons c ds ih =>
    intro e h
    rw [Nat.ofDigitChars_cons] at h ⊢
    have hle := h
    rw [Nat.ofDigitChars_eq_ofDigitChars_zero] at hle
    have hpow : 0 < 10 ^ ds.length := by positivity
    have he : e < 65536 := by nlinarith
    rw [List.foldl_cons, if_pos he]
    exact ih h

theorem sign_digits (hds : Digits ds) : sign ds = (false, ds) := by
  cases ds with
  | nil => rfl
  | cons c ds =>
    have hc : c.isDigit = true := hds c List.mem_cons_self
    unfold sign
    split
    · next heq =>
      cases heq
      cases hc
    · next heq =>
      cases heq
      cases hc
    · rfl

theorem exponent?_digits {negative : Bool} (hds : Digits ds) (hne : ds ≠ [])
    (hlt : Nat.ofDigitChars 10 ds 0 < 65536) :
    exponent? ('e' :: ((if negative then ['-'] else []) ++ ds)) =
      some (if negative then -(Nat.ofDigitChars 10 ds 0 : Int) else Nat.ofDigitChars 10 ds 0) := by
  have hsign : sign ((if negative then ['-'] else []) ++ ds) = (negative, ds) := by
    cases negative with
    | true => rfl
    | false => exact sign_digits hds
  have hall : ¬ (ds.isEmpty ∨ ¬ ds.all Char.isDigit) := by
    simpa [hne, Digits] using hds
  rw [exponent?, if_pos (.inl rfl), hsign]
  simp only [if_neg hall, exponentValue, foldl_exponentValue hlt]

theorem toList_toString (i : Int) : (toString i).toList =
    (if decide (i < 0) then ['-'] else []) ++ Nat.toDigits 10 i.natAbs := by
  cases i with
  | ofNat n => simp [Int.toString_eq_repr, Int.repr, Nat.toList_repr]
  | negSucc n => simp [Int.toString_eq_repr, Int.repr, Nat.toList_repr]

theorem exponent?_toString {i : Int} (hi : i.natAbs < 65536) :
    exponent? ('e' :: (toString i).toList) = some i := by
  have hvalue : Nat.ofDigitChars 10 (Nat.toDigits 10 i.natAbs) 0 = i.natAbs :=
    Nat.ofDigitChars_toDigits (by decide) (by decide)
  rw [toList_toString, exponent?_digits (.toDigits _) Nat.toDigits_ne_nil (by rwa [hvalue]), hvalue]
  congr 1
  by_cases h : i < 0
  · rw [decide_eq_true h, if_pos rfl]
    omega
  · rw [decide_eq_false h, if_neg (by decide)]
    omega

end Literal

section Layout

variable {ds : List Char} {point : Int}

theorem ofDigitChars_zeros_append (n : Nat) (ds : List Char) :
    Nat.ofDigitChars 10 (List.replicate n '0' ++ ds) 0 = Nat.ofDigitChars 10 ds 0 := by
  rw [Nat.ofDigitChars_append, Nat.ofDigitChars_replicate_zero, Nat.mul_zero]

theorem ofDigitChars_append_zeros (n : Nat) (ds : List Char) :
    Nat.ofDigitChars 10 (ds ++ List.replicate n '0') 0 = 10 ^ n * Nat.ofDigitChars 10 ds 0 := by
  rw [Nat.ofDigitChars_append, Nat.ofDigitChars_replicate_zero]

def Reads (ds : List Char) (point : Int) (text : List Char) : Prop :=
  ∃ d, Literal.decimal? text = some d ∧ d.value = Nat.ofDigitChars 10 ds 0 * 10 ^ (point - ds.length)

theorem reads_positional (hds : Digits ds) (hne : ds ≠ []) :
    Reads ds point (Layout.general.writePositional ds point) := by
  rw [Layout.writePositional]
  split
  · next hle =>
    -- The zeros after the point are digits of the fraction, and count for nothing but its length.
    have hread := Literal.decimal?_point (.zeros 1) (by simp) (.append (.zeros (-point).toNat) hds) stops_nil
    rw [List.append_nil] at hread
    refine ⟨_, hread, ?_⟩
    rw [Decimal.value, ofDigitChars_zeros_append, ofDigitChars_zeros_append, List.length_append,
      List.length_replicate]
    congr 2
    push_cast
    omega
  · next hpos =>
    split
    · next hle =>
      have hread := Literal.decimal?_point (.append hds (.zeros (point.toNat - ds.length)))
        (by simp [hne]) (.zeros 1) stops_nil
      refine ⟨_, hread, ?_⟩
      have hpoint : point - ds.length = (point.toNat - ds.length : Nat) := by omega
      have hten : (10 : ℚ) ^ (0 - ((List.replicate 1 '0').length : Int)) = 10⁻¹ := by
        rw [List.length_replicate]
        norm_num
      rw [Decimal.value, List.append_assoc, List.replicate_append_replicate, ofDigitChars_append_zeros,
        hpoint, hten, zpow_natCast, pow_succ]
      push_cast
      ring
    · next hlt =>
      have htake : Digits (ds.take point.toNat) := fun c hc => hds c (List.mem_of_mem_take hc)
      have hdrop : Digits (ds.drop point.toNat) := fun c hc => hds c (List.mem_of_mem_drop hc)
      have hsome : ds.take point.toNat ≠ [] := by
        rw [Ne, List.take_eq_nil_iff]
        rintro (h | h)
        · omega
        · exact hne h
      have hread := Literal.decimal?_point htake hsome hdrop stops_nil
      rw [List.append_nil] at hread
      refine ⟨_, hread, ?_⟩
      rw [Decimal.value, List.take_append_drop, List.length_drop]
      congr 2
      push_cast
      omega

theorem reads_scientific (hds : Digits ds) (hne : ds ≠ []) (hpoint : (point - 1).natAbs < 65536) :
    Reads ds point (Layout.writeScientific ds point) := by
  obtain ⟨c, cs, rfl⟩ := List.exists_cons_of_ne_nil hne
  have hc : Digits [c] := fun x hx => hds x (by simp_all)
  have hcs : Digits cs := fun x hx => hds x (List.mem_cons_of_mem c hx)
  cases cs with
  | nil =>
    have hread : Literal.decimal? ([c] ++ 'e' :: (toString (point - 1)).toList) = _ :=
      Literal.decimal?_exponent hc (by simp)
    rw [Literal.exponent?_toString hpoint] at hread
    refine ⟨_, hread, ?_⟩
    rfl
  | cons c' cs =>
    have hread := Literal.decimal?_point hc (by simp) hcs
      (show Stops Char.isDigit ('e' :: (toString (point - 1)).toList) from stops_cons rfl)
    rw [Literal.exponent?_toString hpoint] at hread
    refine ⟨_, hread, ?_⟩
    rw [Decimal.value]
    congr 2
    simp
    omega

theorem reads_write (point : Int) (hds : Digits ds) (hne : ds ≠ [])
    (hpoint : (point - 1).natAbs < 65536) : Reads ds point (Layout.general.write ds point) := by
  rw [Layout.write]
  split
  · exact reads_positional hds hne
  · exact reads_scientific hds hne hpoint

theorem exists_append_zeros (ds : List Char) :
    ∃ n, ds = (ds.reverse.dropWhile (· == '0')).reverse ++ List.replicate n '0' := by
  refine ⟨(ds.reverse.takeWhile (· == '0')).length, ?_⟩
  have hzeros : (ds.reverse.takeWhile (· == '0')).reverse =
      List.replicate (ds.reverse.takeWhile (· == '0')).length '0' := by
    rw [List.eq_replicate_iff]
    refine ⟨List.length_reverse, fun c hc => ?_⟩
    have hzero := List.mem_takeWhile_imp (List.mem_reverse.1 hc)
    exact eq_of_beq hzero
  rw [← hzeros, ← List.reverse_append, List.takeWhile_append_dropWhile, List.reverse_reverse]

theorem exists_decimal?_writeDecimal {d : Decimal} (hd : d.coefficient ≠ 0)
    (hlt : d.coefficient < 10 ^ 3000) (hlower : -2000 ≤ d.exponent) (hupper : d.exponent ≤ 2000) :
    ∃ d', Literal.decimal? (Layout.general.writeDecimal d) = some d' ∧ d'.value = d.value := by
  have hlength : (Nat.toDigits 10 d.coefficient).length ≤ 3000 :=
    Nat.toDigits_length 10 _ 3000 (by decide) hlt
  have hvalue : Nat.ofDigitChars 10 (Nat.toDigits 10 d.coefficient) 0 = d.coefficient :=
    Nat.ofDigitChars_toDigits (by decide) (by decide)
  have hall := Digits.toDigits d.coefficient
  rw [Layout.writeDecimal]
  generalize Nat.toDigits 10 d.coefficient = digits at hlength hvalue hall
  obtain ⟨n, hn⟩ := exists_append_zeros digits
  generalize (digits.reverse.dropWhile (· == '0')).reverse = ds at hn
  subst hn
  rw [ofDigitChars_append_zeros] at hvalue
  rw [List.length_append, List.length_replicate] at hlength ⊢
  have hne : ds ≠ [] := by
    rintro rfl
    exact hd (by rw [← hvalue]; rfl)
  have hds : Digits ds := fun c hc => hall c (List.mem_append_left _ hc)
  obtain ⟨d', hread, hd'⟩ :=
    reads_write ((ds.length + n : Nat) + d.exponent) hds hne (by omega)
  refine ⟨d', hread, ?_⟩
  have hpoint : ((ds.length + n : Nat) : Int) + d.exponent - ds.length = n + d.exponent := by
    push_cast
    ring
  rw [hd', Decimal.value, ← hvalue, hpoint, zpow_add₀ (by norm_num), zpow_natCast]
  push_cast
  ring

end Layout

theorem exists_decimal?_writeMagnitude {bits : Nat} (h : bits < infinity) :
    ∃ d, Literal.decimal? (Layout.general.writeMagnitude bits) = some d ∧ d.nearest = bits := by
  by_cases hbits : bits = 0
  · subst hbits
    exact ⟨⟨0, -1⟩, rfl, rfl⟩
  · obtain ⟨hlt, hlower, hupper⟩ := Decimal.shortest_bounds h
    obtain ⟨d, hread, hd⟩ := exists_decimal?_writeDecimal
      (Decimal.coefficient_shortest_ne_zero hbits h) hlt hlower hupper
    rw [Layout.writeMagnitude, if_neg hbits]
    exact ⟨d, hread, (Decimal.nearest_congr hd).trans (Decimal.nearest_shortest hbits h)⟩

theorem Literal.sign_of_decimal? {cs : List Char} {d : Decimal} (h : decimal? cs = some d) :
    sign cs = (false, cs) := by
  unfold sign
  split
  · cases h
  · cases h
  · rfl

theorem read?_signed {negative : Bool} {cs : List Char} {bits : Nat}
    (hsign : Literal.sign cs = (false, cs)) (h : Literal.magnitude? cs = some bits) :
    read? (String.ofList ((if negative then ['-'] else []) ++ cs)) = some (ofMagnitude negative bits) := by
  have hsplit : Literal.sign ((if negative then ['-'] else []) ++ cs) = (negative, cs) := by
    cases negative with
    | true => rfl
    | false => exact hsign
  rw [read?, String.toList_ofList, hsplit]
  simp only [h, Option.map_some]

theorem read?_format {x : Float} (hx : parts x ≠ .nan) : read? (format x) = some x := by
  nth_rewrite 2 [← ofMagnitude_magnitude x]
  rw [format, Layout.writeFloat]
  obtain ⟨m, e, hparts, hlt⟩ | ⟨hparts, hinfinity⟩ | hnan := parts_cases x
  · obtain ⟨d, hread, hd⟩ := exists_decimal?_writeMagnitude hlt
    simp only [hparts]
    refine read?_signed (Literal.sign_of_decimal? hread) ?_
    simp only [Literal.magnitude?, hread, hd]
  · simp only [hparts, hinfinity]
    exact read?_signed rfl rfl
  · exact absurd hnan hx

theorem exists_read?_format_of_nan {x : Float} (hx : parts x = .nan) :
    ∃ y, read? (format x) = some y ∧ parts y = .nan := by
  have hformat : format x = "NaN" := by simp only [format, Layout.writeFloat, hx]
  rw [hformat]
  exact ⟨ofMagnitude false notANumber, rfl, by decide +kernel⟩

theorem eq_or_nan_of_format_eq {x y : Float} (h : format x = format y) :
    x = y ∨ parts x = .nan ∧ parts y = .nan := by
  by_cases hx : parts x = .nan
  · obtain ⟨z, hz, hnan⟩ := exists_read?_format_of_nan hx
    by_cases hy : parts y = .nan
    · exact .inr ⟨hx, hy⟩
    · rw [h, read?_format hy] at hz
      exact absurd (Option.some.inj hz ▸ hnan) hy
  · by_cases hy : parts y = .nan
    · obtain ⟨z, hz, hnan⟩ := exists_read?_format_of_nan hy
      rw [← h, read?_format hx] at hz
      exact absurd (Option.some.inj hz ▸ hnan) hx
    · have hread := read?_format hx
      rw [h, read?_format hy] at hread
      exact .inl (Option.some.inj hread).symm

theorem exists_read?_format (x : Float) : ∃ y, read? (format x) = some y := by
  by_cases hx : parts x = .nan
  · obtain ⟨y, hy, _⟩ := exists_read?_format_of_nan hx
    exact ⟨y, hy⟩
  · exact ⟨x, read?_format hx⟩

def Plain (cs : List Char) : Prop :=
  ∀ c ∈ cs, c.isAlphanum = true ∨ c = '.' ∨ c = '-'

section Plain

variable {ds cs cs' : List Char}

theorem Digits.plain (h : Digits ds) : Plain ds := fun c hc => by
  simp [Char.isAlphanum, h c hc]

theorem Plain.append (h : Plain cs) (h' : Plain cs') : Plain (cs ++ cs') := by
  intro c hc
  obtain hc | hc := List.mem_append.1 hc
  · exact h c hc
  · exact h' c hc

theorem Plain.point (h : Plain cs) : Plain ('.' :: cs) :=
  (show Plain ['.'] by simp [Plain]).append h

theorem plain_sign (negative : Bool) : Plain (if negative then ['-'] else []) := by
  cases negative <;> simp [Plain]

theorem plain_write (hds : Digits ds) (point : Int) : Plain (Layout.general.write ds point) := by
  have htake : ∀ n, Plain (ds.take n) := fun n c hc => hds.plain c (List.mem_of_mem_take hc)
  have hdrop : ∀ n, Plain (ds.drop n) := fun n c hc => hds.plain c (List.mem_of_mem_drop hc)
  have hexponent : Plain ('e' :: (toString (point - 1)).toList) := by
    rw [Literal.toList_toString]
    exact (show Plain ['e'] by simp [Plain]).append ((plain_sign _).append (Digits.toDigits _).plain)
  rw [Layout.write]
  split
  · rw [Layout.writePositional]
    split
    · exact .append (.append (Digits.zeros 1).plain (Digits.zeros _).plain.point) hds.plain
    · split
      · exact (hds.plain.append (Digits.zeros _).plain).append (Digits.zeros 1).plain.point
      · exact (htake _).append (hdrop _).point
  · rw [Layout.writeScientific]
    refine ((htake 1).append ?_).append hexponent
    split
    · simp [Plain]
    · exact (hdrop 1).point

theorem plain_format (x : Float) : Plain (format x).toList := by
  rw [format, Layout.writeFloat]
  split
  · simp [Plain]
  · rw [String.toList_ofList]
    exact (plain_sign _).append (by simp [Plain])
  · rw [String.toList_ofList, Layout.writeMagnitude, Layout.writeDecimal]
    refine (plain_sign _).append (plain_write (fun c hc => ?_) _)
    exact Digits.toDigits _ c (List.mem_reverse.1 ((List.dropWhile_sublist _).mem (List.mem_reverse.1 hc)))

end Plain

end ReversePolish.Number
