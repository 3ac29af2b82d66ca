import ReversePolish.Proofs.RunLaws

/-!
Changes of the state that no operation notices. A machine with its state changed so makes the same
steps as before, except that it may run into its budget at another time.
-/

namespace ReversePolish

structure Disguise where
  state : State → State
  scope_state (s) : (state s).scope = s.scope
  heap_state (s) : (state s).heap = s.heap
  tick_state (s) : (state s).tick = state s.tick
  apply_state (s e) : (state s).apply e = state (s.apply e)

def Machine.charged (m : Machine) : State :=
  match m.control with
  | .enter _ => m.state.tick
  | .deliver _ => m.state

namespace Disguise

variable (φ : Disguise) (lib : Library)

def machine (m : Machine) : Machine :=
  { m with state := φ.state m.state }

def outcome (o : Outcome) : Outcome :=
  { o with state := φ.state o.state }

def turn : Turn → Turn
  | .next m => .next (φ.machine m)
  | .done o => .done (φ.outcome o)

theorem charged_machine (m : Machine) : (φ.machine m).charged = φ.state m.charged := by
  obtain ⟨control, frames, s⟩ := m
  cases control with
  | enter p => exact φ.tick_state s
  | deliver v => rfl

theorem settle_state (graph : Nat) (op : Operation) (frames : List Frame) (s : State)
    (r : Response) :
    Machine.settle graph op frames (φ.state s) r =
      φ.turn (Machine.settle graph op frames s r) := by
  match r with
  | .ok (effect, .await place pending) =>
    rw [Machine.settle, apply_state]
    rfl
  | .ok (effect, .finish v) =>
    rw [Machine.settle, apply_state]
    rfl
  | .error cause => rfl

theorem visit_state (p : Place) (frames : List Frame) (s : State) :
    Machine.visit lib p frames (φ.state s) = φ.turn (Machine.visit lib p frames s) := by
  rw [Machine.visit, Machine.visit, scope_state]
  cases lib.node? p with
  | none => rfl
  | some n =>
    cases n with
    | var name =>
      dsimp only
      cases s.scope.find? name <;> rfl
    | num x => rfl
    | apply op operands => exact φ.settle_state _ _ _ _ _

theorem step_machine {m : Machine}
    (h : (φ.state m.charged).meter.overrun? = m.charged.meter.overrun?) :
    (φ.machine m).step lib = φ.turn (m.step lib) := by
  obtain ⟨control, frames, s⟩ := m
  cases control with
  | enter p =>
    change (φ.state s.tick).meter.overrun? = s.tick.meter.overrun? at h
    simp only [machine, Machine.step, tick_state, h]
    cases s.tick.meter.overrun? with
    | some budget => rfl
    | none => exact φ.visit_state lib p frames s.tick
  | deliver v =>
    cases frames with
    | nil => rfl
    | cons f frames =>
      simp only [machine, Machine.step, scope_state, heap_state]
      exact φ.settle_state _ _ _ _ _

end Disguise

end ReversePolish
