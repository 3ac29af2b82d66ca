import ReversePolish.Machine.Frame

/-!
The steps of an evaluation. A machine either enters a node or delivers a value to the innermost
operation under way. Entering a node costs a step of the budget. A failure ends the whole evaluation
and is laid to the innermost operation.
-/

namespace ReversePolish

inductive Control where
  | enter (place : Place)
  | deliver (v : Value)
  deriving DecidableEq

structure Machine where
  control : Control
  -- The operations under way, the innermost first.
  frames : List Frame := []
  state : State

structure Outcome where
  result : Except Fault Value
  state : State

inductive Turn where
  | next (m : Machine)
  | done (o : Outcome)

namespace Machine

def settle (graph : Nat) (op : Operation) (frames : List Frame) (s : State) : Response → Turn
  | .ok (effect, .await place pending) =>
    .next ⟨.enter place, ⟨graph, op, pending⟩ :: frames, s.apply effect⟩
  | .ok (effect, .finish v) => .next ⟨.deliver v, frames, s.apply effect⟩
  | .error cause => .done ⟨.error (.of cause (some op)), s⟩

def fail (frames : List Frame) (s : State) (cause : Cause) : Turn :=
  .done ⟨.error (.of cause (frames.head?.map (·.operation))), s⟩

def visit (lib : Library) (place : Place) (frames : List Frame) (s : State) : Turn :=
  match lib.node? place with
  | none => fail frames s (.notAnExpression place.node)
  | some (.var name) =>
    match s.scope.find? name with
    | none => fail frames s (.missingVariable name)
    | some v => .next ⟨.deliver v, frames, s⟩
  | some (.num x) => .next ⟨.deliver (.number x), frames, s⟩
  | some (.apply op operands) =>
    settle place.graph op frames s (Frame.enter lib place.graph op operands)

def step (lib : Library) (m : Machine) : Turn :=
  match m.control with
  | .enter place =>
    let s := m.state.tick
    match s.meter.overrun? with
    | some budget => fail m.frames s (.budgetExceeded budget)
    | none => visit lib place m.frames s
  | .deliver v =>
    match m.frames with
    | [] => .done ⟨.ok v, m.state⟩
    | f :: frames =>
      settle f.graph f.operation frames m.state (f.resume lib m.state.scope m.state.heap v)

/-- Runs until the evaluation ends, for at most so many steps of the machine. -/
def run (lib : Library) : Nat → Machine → Option Outcome
  | 0, _ => none
  | fuel + 1, m =>
    match m.step lib with
    | .next m => run lib fuel m
    | .done o => some o

end Machine

end ReversePolish
