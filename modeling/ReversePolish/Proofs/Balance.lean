import Mathlib.Algebra.Order.Ring.Int
import Mathlib.Data.Nat.Find
import ReversePolish.Proofs.Subroutines
import ReversePolish.Proofs.Tiling

namespace ReversePolish

namespace Vocabulary

variable (v : Vocabulary)

def arity (word : String) : Nat :=
  (v.find? word).elim 0 Operation.arity

def balance (ws : List String) : Int :=
  (ws.map fun word => 1 - (v.arity word : Int)).sum

/-- Where `h` nodes wait to begin with, the word at this place takes more than there are by then. -/
def LacksAt (h : Int) (ws : List String) (j : Nat) : Prop :=
  ∃ word, ws[j]? = some word ∧ h + v.balance (ws.take j) < v.arity word

variable {v} {h : Int} {word : String} {ws : List String} {j : Nat}

@[simp] theorem balance_nil : v.balance [] = 0 := rfl

@[simp] theorem balance_cons : v.balance (word :: ws) = 1 - v.arity word + v.balance ws := by
  simp [balance]

@[simp] theorem not_lacksAt_nil : ¬ v.LacksAt h [] j := by
  simp [LacksAt]

@[simp] theorem lacksAt_cons_zero : v.LacksAt h (word :: ws) 0 ↔ h < v.arity word := by
  simp [LacksAt]

@[simp] theorem lacksAt_cons_succ :
    v.LacksAt h (word :: ws) (j + 1) ↔ v.LacksAt (h + 1 - v.arity word) ws j := by
  have hsum : h + (1 - v.arity word + v.balance (ws.take j)) =
      h + 1 - v.arity word + v.balance (ws.take j) := by omega
  simp [LacksAt, hsum]

instance : Decidable (v.LacksAt h ws j) :=
  match hword : ws[j]? with
  | none => isFalse (by simp [LacksAt, hword])
  | some word =>
    decidable_of_iff (h + v.balance (ws.take j) < v.arity word) (by simp [LacksAt, hword])

end Vocabulary

namespace Assembler

variable {v : Vocabulary} {word : String} {ws : List String} {a b : Assembler} {j : Nat}

theorem length_push (h : a.push v word = .ok b) :
    v.arity word ≤ a.stack.length ∧
      (b.stack.length : Int) = a.stack.length + 1 - v.arity word := by
  rcases push_eq_ok h with ⟨op, hop, hlen, rfl⟩ | ⟨value, hop, _, rfl⟩ | ⟨hop, _, rfl⟩
  · simp only [Vocabulary.arity, hop, Option.elim_some, add, List.length_cons, List.length_drop]
    omega
  · simp [Vocabulary.arity, hop, add]
  · simp [Vocabulary.arity, hop, add]

theorem push_of_lt (h : a.stack.length < v.arity word) :
    a.push v word = .error (.underflow word a.position (v.arity word) a.stack.length) := by
  cases hp : a.push v word with
  | ok b => exact absurd (length_push hp).1 (Nat.not_le_of_lt h)
  | error e =>
    obtain ⟨op, hop, _, rfl⟩ := push_eq_error hp
    simp only [Vocabulary.arity, hop, Option.elim_some]

theorem push_of_le (h : v.arity word ≤ a.stack.length) : ∃ b, a.push v word = .ok b := by
  cases hp : a.push v word with
  | ok b => exact ⟨b, rfl⟩
  | error e =>
    obtain ⟨op, hop, hlt, _⟩ := push_eq_error hp
    simp only [Vocabulary.arity, hop, Option.elim_some] at h
    omega

theorem foldlM_cons_of_push (hb : a.push v word = .ok b) :
    (word :: ws).foldlM (fun a word => a.push v word) a = ws.foldlM (fun a word => a.push v word) b := by
  rw [List.foldlM_cons, hb]
  rfl

theorem foldlM_of_not_lacksAt (h : ∀ j, ¬ v.LacksAt a.stack.length ws j) :
    ∃ b, ws.foldlM (fun a word => a.push v word) a = .ok b ∧
      (b.stack.length : Int) = a.stack.length + v.balance ws := by
  induction ws generalizing a with
  | nil => exact ⟨a, rfl, by simp⟩
  | cons word ws ih =>
    have hle : v.arity word ≤ a.stack.length := by simpa using h 0
    obtain ⟨b, hb⟩ := push_of_le hle
    have hlen := (length_push hb).2
    obtain ⟨c, hc, hheight⟩ := ih (a := b) fun j => by
      rw [hlen, ← Vocabulary.lacksAt_cons_succ]
      exact h (j + 1)
    refine ⟨c, by rw [foldlM_cons_of_push hb, hc], ?_⟩
    rw [hheight, hlen, Vocabulary.balance_cons]
    omega

theorem foldlM_of_lacksAt (hj : v.LacksAt a.stack.length ws j)
    (hfirst : ∀ i < j, ¬ v.LacksAt a.stack.length ws i) :
    ∃ (word : String) (found : Nat), ws[j]? = some word ∧
      (found : Int) = a.stack.length + v.balance (ws.take j) ∧
      ws.foldlM (fun a word => a.push v word) a =
        .error (.underflow word (a.position + j) (v.arity word) found) := by
  induction ws generalizing a j with
  | nil => exact absurd hj Vocabulary.not_lacksAt_nil
  | cons word ws ih =>
    cases j with
    | zero =>
      have hlt : a.stack.length < v.arity word := by simpa using hj
      refine ⟨word, a.stack.length, rfl, by simp, ?_⟩
      rw [List.foldlM_cons, push_of_lt hlt]
      rfl
    | succ j =>
      have hle : v.arity word ≤ a.stack.length := by simpa using hfirst 0 (Nat.succ_pos j)
      obtain ⟨b, hb⟩ := push_of_le hle
      have hlen := (length_push hb).2
      have hposition := (size_push hb).2
      rw [Vocabulary.lacksAt_cons_succ, ← hlen] at hj
      obtain ⟨other, found, hget, hfound, hfold⟩ := ih hj fun i hi => by
        rw [hlen, ← Vocabulary.lacksAt_cons_succ]
        exact hfirst (i + 1) (Nat.succ_lt_succ hi)
      refine ⟨other, found, hget, ?_, ?_⟩
      · rw [hfound, hlen, List.take_succ_cons, Vocabulary.balance_cons]
        omega
      · rw [foldlM_cons_of_push hb, hfold, hposition, Nat.add_assoc, Nat.add_comm 1]

theorem stack_ne_nil_of_foldlM (hws : ws ≠ [])
    (h : ws.foldlM (fun a word => a.push v word) ({} : Assembler) = .ok a) : a.stack ≠ [] := by
  have hinv : ws ≠ [] → a.stack ≠ [] := by
    refine foldlM_induction (P := fun ws a => ws ≠ [] → a.stack ≠ []) (fun h => absurd rfl h) ?_ h
    intro _ word b c _ hc _
    rcases push_eq_ok hc with ⟨op, _, _, rfl⟩ | ⟨value, _, _, rfl⟩ | ⟨_, _, rfl⟩ <;> simp [add]
  exact hinv hws

end Assembler

namespace Program

variable {v : Vocabulary} {text : String}

theorem read_of_lacksAt {j : Nat} (hj : v.LacksAt 0 (words text) j)
    (hfirst : ∀ i < j, ¬ v.LacksAt 0 (words text) i) :
    ∃ (word : String) (found : Nat), (words text)[j]? = some word ∧
      (found : Int) = v.balance ((words text).take j) ∧
      read v text = .error (.underflow word j (v.arity word) found) := by
  obtain ⟨word, found, hget, hfound, hfold⟩ := Assembler.foldlM_of_lacksAt (a := {}) hj hfirst
  refine ⟨word, found, hget, by simpa using hfound, ?_⟩
  rw [read, hfold, Nat.zero_add]
  rfl

theorem read_of_not_lacksAt (h : ∀ j, ¬ v.LacksAt 0 (words text) j) :
    words text = [] ∧ read v text = .error .empty ∨
    words text ≠ [] ∧ v.balance (words text) = 1 ∧ (∃ p, read v text = .ok p) ∨
    words text ≠ [] ∧ 2 ≤ v.balance (words text) ∧
      ∃ count : Nat, (count : Int) = v.balance (words text) ∧
        read v text = .error (.leftover count) := by
  obtain ⟨a, hfold, hheight⟩ := Assembler.foldlM_of_not_lacksAt (a := {}) h
  have hheight : (a.stack.length : Int) = v.balance (words text) := by simpa using hheight
  rw [read_of_foldlM hfold, Assembler.finish]
  by_cases hws : words text = []
  · rw [hws] at hfold
    obtain rfl := Except.ok.inj hfold
    exact .inl ⟨hws, rfl⟩
  · have hstack := Assembler.stack_ne_nil_of_foldlM hws hfold
    rw [← hheight]
    cases he : a.stack with
    | nil => exact absurd he hstack
    | cons x rest =>
      cases rest with
      | nil => exact .inr (.inl ⟨hws, rfl, _, rfl⟩)
      | cons y rest =>
        refine .inr (.inr ⟨hws, ?_, _, rfl, rfl⟩)
        simp only [List.length_cons]
        omega

theorem exists_underflow_of_lacksAt (h : ∃ j, v.LacksAt 0 (words text) j) :
    ∃ word position expected found,
      read v text = .error (.underflow word position expected found) := by
  obtain ⟨word, found, _, _, hread⟩ :=
    read_of_lacksAt (Nat.find_spec h) fun _ hi => Nat.find_min h hi
  exact ⟨_, _, _, _, hread⟩

theorem read_eq_underflow_iff {word : String} {position expected found : Nat} :
    read v text = .error (.underflow word position expected found) ↔
      v.LacksAt 0 (words text) position ∧ (∀ i < position, ¬ v.LacksAt 0 (words text) i) ∧
        (words text)[position]? = some word ∧ expected = v.arity word ∧
        (found : Int) = v.balance ((words text).take position) := by
  constructor
  · intro h
    by_cases hlacks : ∃ j, v.LacksAt 0 (words text) j
    · have hfirst : ∀ i < Nat.find hlacks, ¬ v.LacksAt 0 (words text) i := fun _ hi =>
        Nat.find_min hlacks hi
      obtain ⟨word', found', hget, hfound, hread⟩ := read_of_lacksAt (Nat.find_spec hlacks) hfirst
      rw [h] at hread
      obtain ⟨rfl, rfl, rfl, rfl⟩ := ReadError.underflow.inj (Except.error.inj hread)
      exact ⟨Nat.find_spec hlacks, hfirst, hget, rfl, hfound⟩
    · obtain ⟨_, hread⟩ | ⟨_, _, _, hread⟩ | ⟨_, _, _, _, hread⟩ :=
        read_of_not_lacksAt fun j hj => hlacks ⟨j, hj⟩
      all_goals
        rw [h] at hread
        cases hread
  · rintro ⟨hlacks, hfirst, hget, rfl, hfound⟩
    obtain ⟨word', found', hget', hfound', hread⟩ := read_of_lacksAt hlacks hfirst
    obtain rfl : word = word' := Option.some.inj (hget.symm.trans hget')
    obtain rfl : found = found' := by omega
    exact hread

end Program

/-- A text is refused for the first word that takes more operands than the count of those before it,
and with that count. Otherwise the count of all words decides: if it is one, the text is a program,
and if it is more, that many nodes are left over. It is never less, but for a text without words. -/
theorem counting_decides_reading (v : Vocabulary) (text : String) :
    let ws := words text
    let lacks := v.LacksAt 0 ws
    ((∃ word position expected found,
        Program.read v text = .error (.underflow word position expected found)) ↔ ∃ j, lacks j) ∧
    (∀ word position expected found,
      Program.read v text = .error (.underflow word position expected found) ↔
        lacks position ∧ (∀ i < position, ¬ lacks i) ∧ ws[position]? = some word ∧
          expected = v.arity word ∧ (found : Int) = v.balance (ws.take position)) ∧
    (Program.read v text = .error .empty ↔ ws.length = 0) ∧
    (∀ count, Program.read v text = .error (.leftover count) ↔
      (∀ j, ¬ lacks j) ∧ 2 ≤ v.balance ws ∧ (count : Int) = v.balance ws) ∧
    ((∃ p, Program.read v text = .ok p) ↔ (∀ j, ¬ lacks j) ∧ v.balance ws = 1) ∧
    ((∀ j, ¬ lacks j) → 0 < ws.length → 1 ≤ v.balance ws) := by
  intro ws lacks
  refine ⟨⟨?_, Program.exists_underflow_of_lacksAt⟩, fun _ _ _ _ => Program.read_eq_underflow_iff, ?_⟩
  · rintro ⟨word, position, expected, found, h⟩
    exact ⟨position, (Program.read_eq_underflow_iff.1 h).1⟩
  by_cases hlacks : ∃ j, lacks j
  · obtain ⟨word, position, expected, found, hread⟩ := Program.exists_underflow_of_lacksAt hlacks
    have hnot : ¬ ∀ j, ¬ lacks j := fun hnone => hlacks.elim hnone
    have hwords : ws.length ≠ 0 := by
      intro hlen
      obtain ⟨j, hj⟩ := hlacks
      simp [lacks, List.length_eq_zero_iff.1 hlen] at hj
    simp [hread, hnot, hwords]
  · have hnone : ∀ j, ¬ lacks j := fun j hj => hlacks ⟨j, hj⟩
    obtain ⟨hws, hread⟩ | ⟨hws, hone, p, hread⟩ | ⟨hws, htwo, count, hcount, hread⟩ :=
      Program.read_of_not_lacksAt hnone
    · simp [hread, ws, hws]
    · have hone : v.balance ws = 1 := hone
      simp [hread, hnone, hone, ws, hws]
    · have htwo : 2 ≤ v.balance ws := htwo
      have hcounts : ∀ n, count = n ↔ (n : Int) = v.balance ws := by
        intro n
        rw [← hcount]
        omega
      have hne : v.balance ws ≠ 1 := by omega
      have hle : 1 ≤ v.balance ws := by omega
      simp [hread, hnone, htwo, hcounts, hne, hle, ws, hws]

theorem counting_decides_reading_branch :
    Program.read .standard "x y + z if print" = .error (.underflow "if" 4 3 2) ∧
      (∀ j, ¬ Vocabulary.standard.LacksAt 0 (words "x y + z print") j) ∧
      1 ≤ Vocabulary.standard.balance (words "x y + z print") ∧
      Program.read .standard "x y + z print" = .error (.leftover 2) := by
  obtain ⟨_, hunderflow, _⟩ := counting_decides_reading .standard "x y + z if print"
  obtain ⟨_, _, _, hleftover, _, hpositive⟩ := counting_decides_reading .standard "x y + z print"
  have hfirst : ∀ i < 4, ¬ Vocabulary.standard.LacksAt 0 (words "x y + z if print") i := by decide
  have hnone : ∀ j, ¬ Vocabulary.standard.LacksAt 0 (words "x y + z print") j := by
    intro j
    by_cases hj : j < 5
    · revert j
      decide
    · rintro ⟨word, hword, _⟩
      rw [List.getElem?_eq_none (Nat.le_of_not_lt hj)] at hword
      cases hword
  exact ⟨(hunderflow _ _ _ _).2 ⟨by decide, hfirst, rfl, rfl, rfl⟩, hnone,
    hpositive hnone (by decide), (hleftover 2).2 ⟨hnone, by decide, rfl⟩⟩

end ReversePolish
