import ReversePolish.Proofs.Legibility
import ReversePolish.Proofs.PureTrees

namespace ReversePolish

namespace Suspension

def graph (k : Suspension) (current : Nat) : Nat :=
  k.caller.getD current

def frames (current : Nat) : List Suspension → List Frame
  | [] => []
  | k :: ks => ⟨k.graph current, k.operation, k.pending⟩ :: frames (k.graph current) ks

def base (current : Nat) : List Suspension → Nat
  | [] => current
  | k :: ks => base (k.graph current) ks

end Suspension

namespace Evaluator

variable {lib : Library} {a b : Activity} {m : Machine} {e e' : Evaluator} {ks : List Suspension}
  {p : Place} {result : Except Fault Value}

namespace Activity

def control (a : Activity) : Control :=
  match a.task with
  | .enter node => .enter ⟨a.evaluator.graph, node⟩
  | .deliver v => .deliver v

def toMachine (a : Activity) : Machine :=
  ⟨a.control, Suspension.frames a.evaluator.graph a.suspended, a.evaluator.state⟩

def base (a : Activity) : Nat :=
  Suspension.base a.evaluator.graph a.suspended

end Activity

inductive Progress.Follows (graph : Nat) : Progress → Turn → Prop
  | next {a : Activity} {m : Machine} : a.toMachine = m → a.base = graph →
      Follows graph (.next a) (.next m)
  | done (result s) : Follows graph (.done result ⟨graph, s⟩) (.done ⟨result, s⟩)

theorem unwind_eq (f : Fault) (e : Evaluator) (ks : List Suspension) :
    unwind f e ks = .done (.error (Machine.leaving (Suspension.frames e.graph ks) f))
      ⟨Suspension.base e.graph ks, e.state⟩ := by
  induction ks generalizing f e with
  | nil =>
    rw [unwind, Suspension.frames, Machine.leaving_nil]
    rfl
  | cons k ks ih =>
    rw [unwind, ih, Machine.leaving_within]
    rfl

theorem follows_unwind (cause : Cause) (e : Evaluator) (ks : List Suspension) :
    (unwind (.of cause none) e ks).Follows (Suspension.base e.graph ks)
      (Machine.fail (Suspension.frames e.graph ks) e.state cause) := by
  rw [unwind_eq]
  exact .done _ _

theorem follows_await (op : Operation) (ks : List Suspension) (e : Evaluator) (place : Place)
    (pending : Pending) :
    (await op ks e place pending).toMachine =
        ⟨.enter place, ⟨e.graph, op, pending⟩ :: Suspension.frames e.graph ks, e.state⟩ ∧
      (await op ks e place pending).base = Suspension.base e.graph ks := by
  obtain ⟨graph, node⟩ := place
  rw [await]
  split
  · next h =>
    obtain rfl : graph = e.graph := h
    exact ⟨rfl, rfl⟩
  · exact ⟨rfl, rfl⟩

theorem follows_settle (op : Operation) (ks : List Suspension) (e : Evaluator) (r : Response) :
    (settle op ks e r).Follows (Suspension.base e.graph ks)
      (Machine.settle e.graph op (Suspension.frames e.graph ks) e.state r) := by
  match r with
  | .ok (effect, .await place pending) =>
    obtain ⟨hmachine, hbase⟩ :=
      follows_await op ks { e with state := e.state.apply effect } place pending
    exact .next hmachine hbase
  | .ok (effect, .finish v) => exact .next rfl rfl
  | .error cause =>
    rw [settle, unwind_eq]
    exact .done _ _

theorem follows_visit (node : Nat) (ks : List Suspension) (e : Evaluator) :
    (visit lib node ks e).Follows (Suspension.base e.graph ks)
      (Machine.visit lib ⟨e.graph, node⟩ (Suspension.frames e.graph ks) e.state) := by
  rw [visit, Machine.visit]
  cases lib.node? ⟨e.graph, node⟩ with
  | none => exact follows_unwind _ e ks
  | some n =>
    cases n with
    | var name =>
      dsimp only
      cases e.state.scope.find? name with
      | none => exact follows_unwind _ e ks
      | some v => exact .next rfl rfl
    | num x => exact .next rfl rfl
    | apply op operands => exact follows_settle op ks e _

theorem follows_step (lib : Library) (a : Activity) :
    (step lib a).Follows a.base (a.toMachine.step lib) := by
  obtain ⟨task, ks, e⟩ := a
  cases task with
  | enter node =>
    let ticked : Evaluator := { e with state := e.state.tick }
    simp only [step, Machine.step, Activity.toMachine, Activity.control]
    cases e.state.tick.meter.overrun? with
    | some budget => exact follows_unwind _ ticked ks
    | none => exact follows_visit node ks ticked
  | deliver v =>
    cases ks with
    | nil => exact .done _ _
    | cons k ks => exact follows_settle k.operation ks (e.putBack k.caller) _

/-- Step by step an evaluator does what the machine does, and in the end its graph is the one to end
with. -/
theorem run_eq (fuel : Nat) (a : Activity) : run lib fuel a =
    (Machine.run lib fuel a.toMachine).map fun o => (o.result, ⟨a.base, o.state⟩) := by
  induction fuel generalizing a with
  | zero => rfl
  | succ fuel ih =>
    have hstep := follows_step lib a
    rw [run, Machine.run]
    generalize step lib a = t, a.toMachine.step lib = t' at hstep
    cases hstep with
    | next hmachine hbase =>
      dsimp only
      rw [ih, hmachine, hbase]
    | done result s => rfl

theorem evaluate_eq (fuel : Nat) (lib : Library) (node : Nat) (e : Evaluator) :
    e.evaluate fuel lib node = (ReversePolish.evaluate fuel lib ⟨e.graph, node⟩ e.state).map
      fun o => (o.result, { e with state := o.state }) :=
  run_eq fuel { task := .enter node, evaluator := e }

theorem evaluateIn_eq (fuel : Nat) (lib : Library) (p : Place) (e : Evaluator) :
    e.evaluateIn fuel lib p = (ReversePolish.evaluate fuel lib p e.state).map
      fun o => (o.result, { e with state := o.state }) := by
  rw [evaluateIn, evaluate_eq, Option.map_map]
  rfl

def Reaches (lib : Library) : Activity → Activity → Prop :=
  Relation.ReflTransGen fun a b => step lib a = .next b

theorem Reaches.toMachine (h : Reaches lib a b) : Machine.Reaches lib a.toMachine b.toMachine := by
  induction h with
  | refl => exact .refl
  | @tail b c _ hs ih =>
    have hstep := follows_step lib b
    rw [hs] at hstep
    generalize hturn : b.toMachine.step lib = t at hstep
    cases hstep with
    | next hmachine => exact ih.tail (hmachine ▸ hturn)

theorem exists_reaches (h : Machine.Reaches lib a.toMachine m) :
    ∃ b, Reaches lib a b ∧ b.toMachine = m := by
  induction h with
  | refl => exact ⟨a, .refl, rfl⟩
  | tail _ hs ih =>
    obtain ⟨b, hb, rfl⟩ := ih
    have hstep := follows_step lib b
    rw [hs] at hstep
    generalize hprogress : step lib b = t at hstep
    cases hstep with
    | next hmachine => exact ⟨_, hb.tail hprogress, hmachine⟩

structure Returns (lib : Library) (p : Place) (e : Evaluator) (result : Except Fault Value)
    (e' : Evaluator) : Prop where
  ends : ∃ fuel, e.evaluateIn fuel lib p = some (result, e')
  goes_on : ∀ a, Reaches lib { task := .enter p.node, evaluator := { e with graph := p.graph } } a →
    ¬ a.toMachine.Hangs lib

theorem returns_iff : Returns lib p e result e' ↔
    e'.graph = e.graph ∧ ReversePolish.Returns lib p e.state ⟨result, e'.state⟩ := by
  constructor
  · rintro ⟨⟨fuel, hrun⟩, hgoes⟩
    rw [evaluateIn_eq] at hrun
    obtain ⟨o, ho, he⟩ := Option.map_eq_some_iff.1 hrun
    cases he
    refine ⟨rfl, ⟨fuel, ho⟩, fun n hn => ?_⟩
    obtain ⟨b, hb, rfl⟩ := exists_reaches
      (a := { task := .enter p.node, evaluator := { e with graph := p.graph } }) hn
    exact hgoes b hb
  · rintro ⟨hgraph, ⟨fuel, ho⟩, hgoes⟩
    obtain ⟨graph, s⟩ := e'
    obtain rfl : graph = e.graph := hgraph
    have hrun : ReversePolish.evaluate fuel lib p e.state = some ⟨result, s⟩ := ho
    exact ⟨⟨fuel, by rw [evaluateIn_eq, hrun]; rfl⟩, fun a ha => hgoes _ ha.toMachine⟩

end Evaluator

end ReversePolish
