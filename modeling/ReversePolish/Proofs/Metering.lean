import ReversePolish.Proofs.Disguise
import ReversePolish.Proofs.FrameLaws

namespace ReversePolish

def Outcome.cut? (o : Outcome) : Option Nat :=
  match o.result with
  | .error ⟨.budgetExceeded budget, _, _⟩ => some budget
  | _ => none

namespace Meter

variable {m : Meter}

theorem overrun?_eq_none_iff : m.overrun? = none ↔ ∀ k ∈ m.budget, m.steps ≤ k := by
  simp [overrun?, Option.filter_eq_none_iff]

theorem overrun?_eq_some_iff {k : Nat} :
    m.overrun? = some k ↔ m.budget = some k ∧ k < m.steps := by
  simp [overrun?, Option.filter_eq_some_iff]

theorem steps_of_overrun {k : Nat} (hm : m.overrun? = none) (h : m.tick.overrun? = some k) :
    m.tick.steps = k + 1 := by
  obtain ⟨hk, hlt⟩ := overrun?_eq_some_iff.1 h
  have hle : m.steps ≤ k := overrun?_eq_none_iff.1 hm k hk
  have htick : m.tick.steps ≤ m.steps + 1 := Nat.min_le_left _ _
  omega

end Meter

theorem State.meter_apply (s : State) (e : Effect) : (s.apply e).meter = s.meter := by
  cases e <;> rfl

theorem Library.targetName_ne_budget {lib : Library} {op : Operation} {p : Place} {cause : Cause}
    (h : lib.targetName op p = .error cause) : cause.category ≠ .budget := by
  rcases targetName_eq_error h with hc | ⟨_, rfl⟩
  · simp [hc]
  · exact nofun

theorem Frame.Rejects.ne_budget {lib : Library} {graph : Nat} {op : Operation}
    {operands : List Nat} {cause : Cause} (h : Rejects lib graph op operands cause) :
    cause.category ≠ .budget := by
  cases h with
  | arity => exact nofun
  | target _ ht => exact Library.targetName_ne_budget ht

theorem Frame.Breaks.ne_budget {lib : Library} {h : Heap} {f : Frame} {v : Value}
    {cause : Cause} (hb : Breaks lib h f v cause) : cause.category ≠ .budget := by
  cases hb with
  | value hc =>
    intro he
    simp [he] at hc
  | target _ ht => exact Library.targetName_ne_budget ht
  | applied _ hr =>
    cases hr with
    | type hc => simp [hc]
    | arithmetic hc => simp [hc]
    | arity => exact nofun

theorem Outcome.cut?_of_category {cause : Cause} {op : Option Operation} {s : State}
    (h : cause.category ≠ .budget) : cut? ⟨.error (.of cause op), s⟩ = none := by
  cases cause with
  | budgetExceeded budget => exact absurd rfl h
  | _ => rfl

namespace Machine

variable {lib : Library} {m : Machine} {o : Outcome} {frames : List Frame} {s : State}
  {graph : Nat} {op : Operation}

def KeepsMeter (meter : Meter) : Turn → Prop :=
  Turn.All (fun m => m.state.meter = meter) fun o => o.cut? = none ∧ o.state.meter = meter

theorem keepsMeter_settle {r : Response} (hr : r.Fails fun cause => cause.category ≠ .budget) :
    KeepsMeter s.meter (settle graph op frames s r) := by
  match r with
  | .ok (effect, .await place pending) => exact s.meter_apply effect
  | .ok (effect, .finish v) => exact s.meter_apply effect
  | .error cause => exact ⟨Outcome.cut?_of_category hr, rfl⟩

theorem keepsMeter_visit (p : Place) : KeepsMeter s.meter (visit lib p frames s) := by
  refine visit_cases (fun _ => ⟨rfl, rfl⟩) (fun _ => ⟨rfl, rfl⟩) (fun _ _ _ _ => rfl) (fun _ => rfl) ?_
  intro op operands _
  exact keepsMeter_settle (Frame.fails_enter.imp fun _ h => h.ne_budget)

theorem keepsMeter_step (h : m.charged.meter.overrun? = none) :
    KeepsMeter m.charged.meter (m.step lib) := by
  obtain ⟨control, frames, s⟩ := m
  cases control with
  | enter p =>
    change s.tick.meter.overrun? = none at h
    simp only [step, h]
    exact keepsMeter_visit p
  | deliver v =>
    cases frames with
    | nil => exact ⟨rfl, rfl⟩
    | cons f frames => exact keepsMeter_settle (Frame.fails_resume.imp fun _ h => h.ne_budget)

structure CutShort (m : Machine) (o : Outcome) (k : Nat) : Prop where
  cut : o.cut? = some k
  budget : m.state.meter.budget = some k
  state : o.state = m.charged
  steps : m.charged.meter.steps = k + 1
  -- A count at the ceiling stays there, so no count from here on is less.
  steps_le : m.charged.meter.steps ≤ Meter.ceiling

theorem step_of_overrun {k : Nat} (hm : m.state.meter.overrun? = none)
    (h : m.charged.meter.overrun? = some k) : ∃ o, m.step lib = .done o ∧ m.CutShort o k := by
  obtain ⟨control, frames, s⟩ := m
  cases control with
  | enter p =>
    change s.tick.meter.overrun? = some k at h
    refine ⟨⟨.error (.of (.budgetExceeded k) (frames.head?.map (·.operation))), s.tick⟩, ?_, rfl,
      (Meter.overrun?_eq_some_iff.1 h).1, rfl, Meter.steps_of_overrun hm h, Nat.min_le_right _ _⟩
    simp only [step, h]
    rfl
  | deliver v =>
    rw [show s.meter.overrun? = some k from h] at hm
    cases hm

theorem budget_charged (m : Machine) : m.charged.meter.budget = m.state.meter.budget := by
  obtain ⟨control, frames, s⟩ := m
  cases control <;> rfl

end Machine

end ReversePolish
