import ReversePolish.Proofs.Metering
import ReversePolish.Proofs.PureTrees

/-!
Evaluations inside of others. What waits for the value of a node makes no difference to how the node
is evaluated, and neither do the steps that have been counted before, as long as there is no budget.
-/

namespace ReversePolish

namespace Machine

def onto (base : List Frame) (m : Machine) : Machine :=
  { m with frames := m.frames ++ base }

end Machine

def Turn.onto (base : List Frame) : Turn → Turn
  | .next m => .next (m.onto base)
  | .done ⟨.ok v, s⟩ => .next ⟨.deliver v, base, s⟩
  | .done ⟨.error f, s⟩ => .done ⟨.error (Machine.leaving base f), s⟩

namespace Machine

variable {lib : Library} {m : Machine} {o : Outcome} {frames : List Frame} {s : State}
  {base : List Frame}

theorem settle_onto (graph : Nat) (op : Operation) (r : Response) :
    settle graph op (frames ++ base) s r = (settle graph op frames s r).onto base := by
  match r with
  | .ok (effect, .await place pending) => rfl
  | .ok (effect, .finish v) => rfl
  | .error cause => rfl

theorem fail_onto (cause : Cause) :
    fail (frames ++ base) s cause = (fail frames s cause).onto base := by
  cases frames <;> rfl

theorem visit_onto (p : Place) :
    visit lib p (frames ++ base) s = (visit lib p frames s).onto base := by
  rw [visit, visit]
  cases lib.node? p with
  | none => exact fail_onto _
  | some n =>
    cases n with
    | var name =>
      dsimp only
      cases s.scope.find? name with
      | none => exact fail_onto _
      | some v => rfl
    | num x => rfl
    | apply op operands => exact settle_onto _ _ _

theorem step_onto (lib : Library) (base : List Frame) (hm : m.frames ≠ [] ∨ ∃ p, m.control = .enter p) :
    (m.onto base).step lib = (m.step lib).onto base := by
  obtain ⟨control, frames, s⟩ := m
  cases control with
  | enter p =>
    simp only [onto, step]
    cases s.tick.meter.overrun? with
    | some budget => exact fail_onto _
    | none => exact visit_onto p
  | deliver v =>
    cases frames with
    | nil =>
      obtain h | ⟨p, hp⟩ := hm
      · exact absurd rfl h
      · cases hp
    | cons f frames => exact settle_onto _ _ _

/-- What the evaluation of a node means to the operations that wait for it. -/
def Yields (lib : Library) (m : Machine) (base : List Frame) (o : Outcome) : Prop :=
  match o.result with
  | .ok v => Reaches lib m ⟨.deliver v, base, o.state⟩
  | .error f => Ends lib m ⟨.error (leaving base f), o.state⟩

theorem Yields.of_next {m' : Machine} (h : m.step lib = .next m') (hm : Yields lib m' base o) :
    Yields lib m base o := by
  obtain ⟨result, s⟩ := o
  cases result with
  | ok v => exact Relation.ReflTransGen.head h hm
  | error f => exact Ends.of_next h hm

theorem idle_or_active (m : Machine) :
    (∃ v s, m = ⟨.deliver v, [], s⟩) ∨ m.frames ≠ [] ∨ ∃ p, m.control = .enter p := by
  obtain ⟨control, frames, s⟩ := m
  cases control with
  | enter p => exact .inr (.inr ⟨p, rfl⟩)
  | deliver v =>
    cases frames with
    | nil => exact .inl ⟨v, s, rfl⟩
    | cons f frames => exact .inr (.inl (by simp))

theorem Ends.onto (h : Ends lib m o) (base : List Frame) : Yields lib (m.onto base) base o := by
  obtain ⟨fuel, h⟩ := h
  induction fuel generalizing m with
  | zero => cases h
  | succ fuel ih =>
    -- A machine that has only its last value left to deliver has nothing more to do by itself.
    obtain ⟨v, s, rfl⟩ | hactive := idle_or_active m
    · obtain rfl := Option.some.inj h
      exact .refl
    · have hstep := step_onto lib base hactive
      match hs : m.step lib with
      | .next m' =>
        rw [hs] at hstep
        rw [run_succ_of_next hs] at h
        exact .of_next hstep (ih h)
      | .done ⟨.ok v, s⟩ =>
        rw [run_succ_of_done hs] at h
        obtain rfl := Option.some.inj h
        rw [hs] at hstep
        exact Reaches.of_next hstep
      | .done ⟨.error f, s⟩ =>
        rw [run_succ_of_done hs] at h
        obtain rfl := Option.some.inj h
        rw [hs] at hstep
        exact Ends.of_done hstep

theorem Ends.of_onto (h : Ends lib (m.onto base) o) : ∃ o, Ends lib m o := by
  obtain ⟨fuel, h⟩ := h
  induction fuel generalizing m with
  | zero => cases h
  | succ fuel ih =>
    match hs : m.step lib with
    | .done o => exact ⟨o, .of_done hs⟩
    | .next m' =>
      obtain ⟨v, s, rfl⟩ | hactive := idle_or_active m
      · cases hs
      · have hstep := step_onto lib base hactive
        rw [hs] at hstep
        rw [run_succ_of_next hstep] at h
        obtain ⟨o, ho⟩ := ih h
        exact ⟨o, .of_next hs ho⟩

theorem Reaches.of_onto {a n : Machine} (h : Reaches lib (a.onto base) n) :
    (∃ a', Reaches lib a a' ∧ n = a'.onto base) ∨
      ∃ v s, Ends lib a ⟨.ok v, s⟩ ∧ Reaches lib ⟨.deliver v, base, s⟩ n := by
  induction h with
  | refl => exact .inl ⟨a, .refl, rfl⟩
  | @tail n n' _ hs ih =>
    obtain ⟨a', ha', rfl⟩ | ⟨v, s, hends, hn⟩ := ih
    · obtain ⟨v, s, rfl⟩ | hactive := idle_or_active a'
      · exact .inr ⟨v, s, ha'.ends (.of_done rfl), .of_next hs⟩
      · rw [step_onto lib base hactive] at hs
        match hs' : a'.step lib with
        | .next a'' =>
          rw [hs'] at hs
          obtain rfl := Turn.next.inj hs
          exact .inl ⟨a'', ha'.tail hs', rfl⟩
        | .done ⟨.ok v, s⟩ =>
          rw [hs'] at hs
          obtain rfl := Turn.next.inj hs
          exact .inr ⟨v, s, ha'.ends (.of_done hs'), .refl⟩
        | .done ⟨.error f, s⟩ =>
          rw [hs'] at hs
          cases hs
    · exact .inr ⟨v, s, hends, hn.tail hs⟩

end Machine

def Disguise.ticks (n : Nat) : Disguise where
  state := State.tick^[n]
  scope_state s := s.scope_ticks n
  heap_state s := s.heap_ticks n
  tick_state s := (Function.iterate_succ_apply' State.tick n s).symm
  apply_state s e := by
    rw [State.ticks_eq, State.ticks_eq, State.meter_apply]
    cases e <;> rfl

end ReversePolish
