import Mathlib.Logic.Relation
import ReversePolish.Run

namespace ReversePolish

def Turn.All (P : Machine → Prop) (Q : Outcome → Prop) : Turn → Prop
  | .next m => P m
  | .done o => Q o

inductive Turn.Rel (R : Machine → Machine → Prop) (Q : Outcome → Outcome → Prop) : Turn → Turn → Prop
  | next {m m'} : R m m' → Rel R Q (.next m) (.next m')
  | done {o o'} : Q o o' → Rel R Q (.done o) (.done o')

theorem Turn.Rel.with_left {R : Machine → Machine → Prop} {Q : Outcome → Outcome → Prop}
    {P : Machine → Prop} {E : Outcome → Prop} {t t' : Turn} (h : Rel R Q t t') (ht : t.All P E) :
    Rel (fun m m' => P m ∧ R m m') Q t t' := by
  cases h with
  | next hm => exact .next ⟨ht, hm⟩
  | done ho => exact .done ho

theorem Turn.Rel.flip {R : Machine → Machine → Prop} {Q : Outcome → Outcome → Prop} {t t' : Turn}
    (h : Rel R Q t t') : Rel (fun m' m => R m m') (fun o' o => Q o o') t' t := by
  cases h with
  | next hm => exact .next hm
  | done ho => exact .done ho

namespace Machine

variable {lib lib' : Library} {m m' : Machine} {o o' : Outcome} {fuel fuel' : Nat}

/-- Given enough steps, the evaluation ends with this outcome. -/
def Ends (lib : Library) (m : Machine) (o : Outcome) : Prop :=
  ∃ fuel, run lib fuel m = some o

def Reaches (lib : Library) : Machine → Machine → Prop :=
  Relation.ReflTransGen fun m m' => m.step lib = .next m'

theorem run_succ_of_next (h : m.step lib = .next m') : run lib (fuel + 1) m = run lib fuel m' := by
  rw [run, h]

theorem run_succ_of_done (h : m.step lib = .done o) : run lib (fuel + 1) m = some o := by
  rw [run, h]

theorem run_of_le (h : run lib fuel m = some o) (hle : fuel ≤ fuel') :
    run lib fuel' m = some o := by
  induction fuel generalizing m fuel' with
  | zero => cases h
  | succ fuel ih =>
    obtain ⟨n, rfl⟩ := Nat.exists_eq_add_one_of_ne_zero (Nat.ne_zero_of_lt hle)
    match hs : m.step lib with
    | .next m' =>
      rw [run_succ_of_next hs] at h ⊢
      exact ih h (by omega)
    | .done o' =>
      rw [run_succ_of_done hs] at h ⊢
      exact h

theorem Ends.unique (h : Ends lib m o) (h' : Ends lib m o') : o = o' := by
  obtain ⟨fuel, h⟩ := h
  obtain ⟨fuel', h'⟩ := h'
  have h := run_of_le h (Nat.le_max_left fuel fuel')
  have h' := run_of_le h' (Nat.le_max_right fuel fuel')
  exact Option.some.inj (h.symm.trans h')

theorem Ends.of_done (h : m.step lib = .done o) : Ends lib m o :=
  ⟨1, run_succ_of_done h⟩

theorem Ends.of_next (h : m.step lib = .next m') (hm : Ends lib m' o) : Ends lib m o := by
  obtain ⟨fuel, hm⟩ := hm
  exact ⟨fuel + 1, by rw [run_succ_of_next h, hm]⟩

theorem Ends.next (h : m.step lib = .next m') (hm : Ends lib m o) : Ends lib m' o := by
  obtain ⟨fuel, hm⟩ := hm
  match fuel with
  | 0 => cases hm
  | fuel + 1 =>
    rw [run_succ_of_next h] at hm
    exact ⟨fuel, hm⟩

theorem Reaches.ends (h : Reaches lib m m') (hm : Ends lib m' o) : Ends lib m o := by
  induction h using Relation.ReflTransGen.head_induction_on with
  | refl => exact hm
  | head hs _ ih => exact Ends.of_next hs ih

theorem Reaches.ends_of (h : Reaches lib m m') (hm : Ends lib m o) : Ends lib m' o := by
  induction h with
  | refl => exact hm
  | tail _ hs ih => exact Ends.next hs ih

theorem Reaches.of_next (h : m.step lib = .next m') : Reaches lib m m' :=
  Relation.ReflTransGen.single h

theorem Ends.not_reaches (h : Ends lib m o) (hs : m.step lib = .next m') : ¬ Reaches lib m' m := by
  obtain ⟨fuel, h⟩ := h
  induction fuel generalizing m m' with
  | zero => cases h
  | succ fuel ih =>
    intro hback
    rw [run_succ_of_next hs] at h
    -- The next machine would come back to itself as well, with fewer steps left.
    have hround : Reaches lib m m' := .of_next hs
    obtain rfl | ⟨m'', hs', hm''⟩ := Relation.ReflTransGen.cases_head hback
    · exact ih hs h hback
    · exact ih hs' h (hm''.trans hround)

theorem Reaches.all_step (h : Reaches lib m m') :
    (m'.step lib).All (Reaches lib m) fun _ => True := by
  match hs : m'.step lib with
  | .next n => exact .tail h hs
  | .done o => trivial

theorem visit_cases {P : Turn → Prop} {p : Place} {frames : List Frame} {s : State}
    (missing : lib.node? p = none → P (fail frames s (.notAnExpression p.node)))
    (unbound : ∀ name, P (fail frames s (.missingVariable name)))
    (bound : ∀ name v, lib.node? p = some (.var name) → s.scope.find? name = some v →
      P (.next ⟨.deliver v, frames, s⟩))
    (num : ∀ x, P (.next ⟨.deliver (.number x), frames, s⟩))
    (apply : ∀ op operands, lib.node? p = some (.apply op operands) →
      P (settle p.graph op frames s (Frame.enter lib p.graph op operands))) :
    P (visit lib p frames s) := by
  rw [visit]
  cases hn : lib.node? p with
  | none => exact missing hn
  | some n =>
    cases n with
    | var name =>
      dsimp only
      cases hv : s.scope.find? name with
      | none => exact unbound name
      | some v => exact bound name v hn hv
    | num x => exact num x
    | apply op operands => exact apply op operands hn

theorem run_invariant {P : Machine → Prop} {Q : Outcome → Prop}
    (step : ∀ m, P m → (m.step lib).All P Q) (h : Ends lib m o) (hm : P m) : Q o := by
  obtain ⟨fuel, h⟩ := h
  induction fuel generalizing m with
  | zero => cases h
  | succ fuel ih =>
    have hs := step m hm
    match he : m.step lib with
    | .next m' =>
      rw [he] at hs
      rw [run_succ_of_next he] at h
      exact ih hs h
    | .done o' =>
      rw [he] at hs
      rw [run_succ_of_done he] at h
      obtain rfl := Option.some.inj h
      exact hs

theorem ends_of_measure {P : Machine → Prop} {Q : Outcome → Prop} (μ : Machine → Nat)
    (step : ∀ m, P m → (m.step lib).All (fun m' => P m' ∧ μ m' < μ m) Q) (hm : P m) :
    ∃ o, Ends lib m o ∧ Q o := by
  induction hn : μ m using Nat.strongRecOn generalizing m with
  | ind n ih =>
    have hs := step m hm
    match he : m.step lib with
    | .next m' =>
      rw [he] at hs
      obtain ⟨hm', hlt⟩ := hs
      obtain ⟨o, ho, hq⟩ := ih (μ m') (hn ▸ hlt) hm' rfl
      exact ⟨o, .of_next he ho, hq⟩
    | .done o =>
      rw [he] at hs
      exact ⟨o, .of_done he, hs⟩

end Machine

def Evaluates (lib : Library) (place : Place) (s : State) (o : Outcome) : Prop :=
  ∃ fuel, evaluate fuel lib place s = some o

theorem Evaluates.ends {lib : Library} {place : Place} {s : State} {o : Outcome}
    (h : Evaluates lib place s o) : Machine.Ends lib { control := .enter place, state := s } o :=
  h

theorem runWith_eq_some {fuel : Nat} {v : Vocabulary} {lib : Library} {text : String} {s : State}
    {r : Report} (h : runWith fuel v lib text s = some r) :
    (∃ e, Program.read v text = .error e ∧ r = ⟨.error (.read e), lib, s⟩) ∨
    ∃ p o, Program.read v text = .ok p ∧
      evaluate fuel (lib.add p.graph) ⟨lib.next, p.root⟩ s = some o ∧
      r = ⟨o.result.mapError .fault, lib.add p.graph, o.state⟩ := by
  rw [runWith] at h
  match hp : Program.read v text with
  | .error e =>
    simp only [hp] at h
    exact .inl ⟨e, rfl, (Option.some.inj h).symm⟩
  | .ok p =>
    simp only [hp] at h
    obtain ⟨o, ho, rfl⟩ := Option.map_eq_some_iff.1 h
    exact .inr ⟨p, o, rfl, ho, rfl⟩

end ReversePolish
