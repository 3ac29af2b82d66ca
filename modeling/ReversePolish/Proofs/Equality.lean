import ReversePolish.Arithmetic
import ReversePolish.Proofs.FloatLaws

namespace ReversePolish

namespace Heap

variable {h : Heap} {a b c : Nat}

structure SameNumbers (h : Heap) (a b : Nat) : Prop where
  length : h.length a = h.length b
  get : ∀ {i x y}, h.get? a i = some x → h.get? b i = some y → (x == y) = true

namespace SameNumbers

theorem symm (hab : h.SameNumbers a b) : h.SameNumbers b a where
  length := hab.length.symm
  get hx hy := BEq.symm (hab.get hy hx)

theorem exists_get (hab : h.SameNumbers a b) {i : Nat} {x : Float} (hx : h.get? a i = some x) :
    ∃ y, h.get? b i = some y ∧ (x == y) = true := by
  obtain ⟨hi, _⟩ := Array.getElem?_eq_some_iff.1 hx
  have hy : h.get? b i = some _ := Array.getElem?_eq_getElem (lt_of_lt_of_eq hi hab.length)
  exact ⟨_, hy, hab.get hx hy⟩

theorem trans (hab : h.SameNumbers a b) (hbc : h.SameNumbers b c) : h.SameNumbers a c where
  length := hab.length.trans hbc.length
  get hx hz := by
    obtain ⟨y, hy, hxy⟩ := hab.exists_get hx
    exact BEq.trans hxy (hbc.get hy hz)

end SameNumbers

theorem isEqv_buffer_iff :
    (h.buffer a).isEqv (h.buffer b) (· == ·) = true ↔ h.SameNumbers a b := by
  rw [Array.isEqv_iff_rel]
  constructor
  · rintro ⟨hlength, hget⟩
    refine ⟨hlength, fun {i x y} hx hy => ?_⟩
    obtain ⟨hi, rfl⟩ := Array.getElem?_eq_some_iff.1 hx
    obtain ⟨_, rfl⟩ := Array.getElem?_eq_some_iff.1 hy
    exact hget i hi
  · rintro ⟨hlength, hget⟩
    exact ⟨hlength, fun i hi =>
      hget (Array.getElem?_eq_getElem hi) (Array.getElem?_eq_getElem (lt_of_lt_of_eq hi hlength))⟩

end Heap

namespace Value

variable {h : Heap} {u v w : Value}

inductive Same (h : Heap) : Value → Value → Prop
  | number {x y} : (x == y) = true → Same h (.number x) (.number y)
  | boolean (b) : Same h (.boolean b) (.boolean b)
  | handle (a) : Same h (.array a) (.array a)
  | contents {a b} : h.SameNumbers a b → Same h (.array a) (.array b)
  | deferred (origin body) : Same h (.deferred origin body) (.deferred origin body)
  | nop : Same h .nop .nop

theorem equal_iff : v.equal h w = true ↔ Same h v w := by
  constructor
  · intro he
    unfold equal at he
    split at he
    · exact .number he
    · obtain rfl := eq_of_beq he
      exact .boolean _
    · obtain he | he := (Bool.or_eq_true_iff).1 he
      · obtain rfl := eq_of_beq he
        exact .handle _
      · exact .contents (Heap.isEqv_buffer_iff.1 he)
    · obtain ⟨ho, hp⟩ := (Bool.and_eq_true_iff).1 he
      obtain rfl := eq_of_beq ho
      obtain rfl := eq_of_beq hp
      exact .deferred _ _
    · exact .nop
    · cases he
  · intro hsame
    cases hsame with
    | number he => exact he
    | contents hab => simp [equal, Heap.arraysEqual, Heap.isEqv_buffer_iff.2 hab]
    | boolean | handle | deferred | nop => simp [equal, Heap.arraysEqual]

namespace Same

theorem symm (hvw : Same h v w) : Same h w v := by
  cases hvw with
  | number he => exact .number (BEq.symm he)
  | boolean b => exact .boolean b
  | handle a => exact .handle a
  | contents hab => exact .contents hab.symm
  | deferred origin body => exact .deferred origin body
  | nop => exact .nop

theorem trans (huv : Same h u v) (hvw : Same h v w) : Same h u w := by
  cases huv with
  | number he =>
    cases hvw with
    | number he' => exact .number (BEq.trans he he')
  | contents hab =>
    cases hvw with
    | handle => exact .contents hab
    | contents hbc => exact .contents (hab.trans hbc)
  | boolean | handle | deferred | nop => exact hvw

theorem self_iff : Same h v v ↔ ¬ ∃ x, v = .number x ∧ x.isNaN = true := by
  cases v with
  | number x =>
    constructor
    · rintro ⟨he⟩ ⟨_, ⟨⟩, hnan⟩
      rw [Number.beq_self_iff.1 he] at hnan
      cases hnan
    · intro hnan
      refine .number (Number.beq_self_iff.2 ?_)
      cases hx : x.isNaN with
      | false => rfl
      | true => exact absurd ⟨x, rfl, hx⟩ hnan
  | boolean b => exact iff_of_true (.boolean b) (by rintro ⟨_, ⟨⟩, _⟩)
  | array a => exact iff_of_true (.handle a) (by rintro ⟨_, ⟨⟩, _⟩)
  | deferred origin body => exact iff_of_true (.deferred origin body) (by rintro ⟨_, ⟨⟩, _⟩)
  | nop => exact iff_of_true .nop (by rintro ⟨_, ⟨⟩, _⟩)

theorem sameSort (hvw : Same h v w) : v.sameSort w = true := by
  cases hvw <;> rfl

theorem sameNumbers {a b : Nat} (hne : a ≠ b) (hab : Same h (.array a) (.array b)) :
    h.SameNumbers a b := by
  cases hab with
  | handle => exact absurd rfl hne
  | contents hab => exact hab

end Same

theorem agrees_eq (h : Heap) (v w : Value) : v.agrees h w = v.equal h w := by
  rw [agrees, Bool.and_eq_right_iff_imp]
  exact fun he => (equal_iff.1 he).sameSort

end Value

/-- Any two values can be compared. Values of different sorts are not equal, and what is no number
equals nothing; apart from that, a value equals itself. So does an array that holds what is no
number, but no other array equals it then. -/
theorem equality_is_a_partial_equivalence (h : Heap) :
    (∀ v w, Operation.eq.applyBinary h v w = .ok (.boolean (v.equal h w)) ∧
      Operation.ne.applyBinary h v w = .ok (.boolean (!v.equal h w))) ∧
    (∀ v w : Value, v.sameSort w = false → v.equal h w = false) ∧
    (∀ v w : Value, v.equal h w = w.equal h v) ∧
    (∀ u v w : Value, u.equal h v = true → v.equal h w = true → u.equal h w = true) ∧
    (∀ v : Value, v.equal h v = true ↔ ¬ ∃ x, v = .number x ∧ x.isNaN = true) ∧
    (∀ x y, (Value.number x).equal h (.number y) = true ↔
      x.isNaN = false ∧ y.isNaN = false ∧ (x = y ∨ x = 0 ∧ y = -0 ∨ x = -0 ∧ y = 0)) ∧
    (∀ a b, a ≠ b → ((Value.array a).equal h (.array b) = true ↔ h.length a = h.length b ∧
      ∀ i x y, h.get? a i = some x → h.get? b i = some y →
        (Value.number x).equal h (.number y) = true)) ∧
    (∀ a b i x, a ≠ b → h.get? a i = some x → x.isNaN = true →
      (Value.array a).equal h (.array b) = false) ∧
    ∀ origin origin' (p p' : Place), (Value.deferred origin p).equal h (.deferred origin' p') = true ↔
      origin = origin' ∧ p.node = p'.node ∧ p.graph = p'.graph := by
  refine ⟨?operations, ?sorts, ?symm, ?trans, ?self, ?numbers, ?arrays, ?nan, ?deferred⟩
  case operations =>
    intro v w
    rw [← Value.agrees_eq]
    exact ⟨rfl, rfl⟩
  case sorts =>
    intro v w hsort
    rw [Bool.eq_false_iff, Ne, Value.equal_iff]
    intro hvw
    rw [hvw.sameSort] at hsort
    cases hsort
  case symm =>
    intro v w
    rw [Bool.eq_iff_iff, Value.equal_iff, Value.equal_iff]
    exact ⟨.symm, .symm⟩
  case trans =>
    simp only [Value.equal_iff]
    exact fun u v w => .trans
  case self =>
    intro v
    rw [Value.equal_iff, Value.Same.self_iff]
  case numbers => exact fun x y => Number.beq_iff
  case arrays =>
    intro a b hne
    rw [Value.equal_iff]
    constructor
    · intro hab
      obtain ⟨hlength, hget⟩ := hab.sameNumbers hne
      exact ⟨hlength, fun _ _ _ => hget⟩
    · rintro ⟨hlength, hget⟩
      exact .contents ⟨hlength, hget _ _ _⟩
  case nan =>
    intro a b i x hne hx hnan
    rw [Bool.eq_false_iff, Ne, Value.equal_iff]
    intro hab
    obtain ⟨y, _, hxy⟩ := (hab.sameNumbers hne).exists_get hx
    rw [(Number.beq_iff.1 hxy).1] at hnan
    cases hnan
  case deferred =>
    intro origin origin' p p'
    rw [Value.equal_iff]
    constructor
    · rintro ⟨⟩
      exact ⟨rfl, rfl, rfl⟩
    · obtain ⟨graph, node⟩ := p
      rintro ⟨rfl, rfl, rfl⟩
      exact .deferred _ _

-- Zeros with different signs match, an array of no number equals itself, and not another such array.
example : let h := ((Heap.add {} #[0.0]).add #[-0.0]).add #[0.0 / 0.0] |>.add #[0.0 / 0.0]
    (Value.array 0).equal h (.array 1) = true ∧ (Value.array 2).equal h (.array 2) = true ∧
      (Value.array 2).equal h (.array 3) = false := by
  decide +kernel

end ReversePolish
