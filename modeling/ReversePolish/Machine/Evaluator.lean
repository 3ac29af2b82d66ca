import ReversePolish.Machine.Step

/-!
Evaluation with one graph at a time. The nodes that are asked for are those of the current graph; a
call puts the graph of the subroutine in its place, and it is put back however the call ends.
-/

namespace ReversePolish

structure Evaluator where
  graph : Nat
  state : State

/-- An operation that waits, and the graph to put back for it if another one is current by then. -/
structure Suspension where
  operation : Operation
  pending : Pending
  caller : Option Nat
  deriving DecidableEq

inductive Task where
  | enter (node : Nat)
  | deliver (v : Value)
  deriving DecidableEq

namespace Evaluator

structure Activity where
  task : Task
  -- The innermost first.
  suspended : List Suspension := []
  evaluator : Evaluator

inductive Progress where
  | next (a : Activity)
  | done (result : Except Fault Value) (e : Evaluator)

def putBack (e : Evaluator) (caller : Option Nat) : Evaluator :=
  { e with graph := caller.getD e.graph }

def unwind (f : Fault) (e : Evaluator) : List Suspension → Progress
  | [] => .done (.error f) e
  | k :: ks => unwind (f.within k.operation) (e.putBack k.caller) ks

def await (op : Operation) (ks : List Suspension) (e : Evaluator) (place : Place)
    (pending : Pending) : Activity :=
  if place.graph = e.graph then ⟨.enter place.node, ⟨op, pending, none⟩ :: ks, e⟩
  else ⟨.enter place.node, ⟨op, pending, some e.graph⟩ :: ks, { e with graph := place.graph }⟩

def settle (op : Operation) (ks : List Suspension) (e : Evaluator) : Response → Progress
  | .ok (effect, .await place pending) =>
    .next (await op ks { e with state := e.state.apply effect } place pending)
  | .ok (effect, .finish v) => .next ⟨.deliver v, ks, { e with state := e.state.apply effect }⟩
  | .error cause => unwind ((Fault.of cause none).within op) e ks

def visit (lib : Library) (node : Nat) (ks : List Suspension) (e : Evaluator) : Progress :=
  match lib.node? ⟨e.graph, node⟩ with
  | none => unwind (.of (.notAnExpression node) none) e ks
  | some (.var name) =>
    match e.state.scope.find? name with
    | none => unwind (.of (.missingVariable name) none) e ks
    | some v => .next ⟨.deliver v, ks, e⟩
  | some (.num x) => .next ⟨.deliver (.number x), ks, e⟩
  | some (.apply op operands) => settle op ks e (Frame.enter lib e.graph op operands)

def step (lib : Library) (a : Activity) : Progress :=
  match a.task with
  | .enter node =>
    let e := { a.evaluator with state := a.evaluator.state.tick }
    match e.state.meter.overrun? with
    | some budget => unwind (.of (.budgetExceeded budget) none) e a.suspended
    | none => visit lib node a.suspended e
  | .deliver v =>
    match a.suspended with
    | [] => .done (.ok v) a.evaluator
    | k :: ks =>
      let e := a.evaluator.putBack k.caller
      let f : Frame := ⟨e.graph, k.operation, k.pending⟩
      settle k.operation ks e (f.resume lib e.state.scope e.state.heap v)

def run (lib : Library) : Nat → Activity → Option (Except Fault Value × Evaluator)
  | 0, _ => none
  | fuel + 1, a =>
    match step lib a with
    | .next a => run lib fuel a
    | .done result e => some (result, e)

def evaluate (fuel : Nat) (lib : Library) (node : Nat) (e : Evaluator) :
    Option (Except Fault Value × Evaluator) :=
  run lib fuel { task := .enter node, evaluator := e }

/-- Evaluates a node of another graph, which is the current one as long as that takes. -/
def evaluateIn (fuel : Nat) (lib : Library) (place : Place) (e : Evaluator) :
    Option (Except Fault Value × Evaluator) :=
  (evaluate fuel lib place.node { e with graph := place.graph }).map fun (result, e') =>
    (result, { e' with graph := e.graph })

end Evaluator

end ReversePolish
