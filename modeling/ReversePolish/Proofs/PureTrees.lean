import Mathlib.Logic.Function.Iterate
import ReversePolish.Proofs.RunLaws

/-!
The value of a tree of pure operations, by recursion on the tree, and the machine that arrives at it
step by step with nothing changed but the count of its steps. A budget that is too small ends both
of them at the same node.
-/

namespace ReversePolish

namespace Tree

/-- Nothing is missing, and all operations are pure and have as many operands as they take. -/
inductive Pure : Tree → Prop
  | var (name) : Pure (.var name)
  | num (value) : Pure (.num value)
  | apply {op operands} : op.isPure = true → operands.length = op.arity →
      (∀ t ∈ operands, Pure t) → Pure (.apply op operands)

mutual

def size : Tree → Nat
  | .apply _ operands => sizeAll operands + 1
  | _ => 1

def sizeAll : List Tree → Nat
  | [] => 0
  | t :: ts => size t + sizeAll ts

end

end Tree

theorem Tree.induct {P : Tree → Prop} (var : ∀ name, P (.var name)) (num : ∀ value, P (.num value))
    (apply : ∀ op operands, (∀ t ∈ operands, P t) → P (.apply op operands))
    (missing : ∀ id, P (.missing id)) (t : Tree) : P t := by
  refine @Tree.rec P (fun ts => ∀ t ∈ ts, P t) var num apply missing ?_ ?_ t
  · intro t ht
    cases ht
  · intro t ts ht hts
    exact List.forall_mem_cons.2 ⟨ht, hts⟩

def Operation.applyOperands (h : Heap) (op : Operation) :
    Except Fault (List Value) → Except Fault Value
  | .error f => .error (f.within op)
  | .ok vs => (op.applyPure h vs).mapError fun cause => .of cause (some op)

namespace Tree

mutual

def evaluate (scope : Scope) (h : Heap) : Tree → Except Fault Value
  | .var name =>
    match scope.find? name with
    | some v => .ok v
    | none => .error (.of (.missingVariable name) none)
  | .num value => .ok (.number value)
  | .apply op operands => op.applyOperands h (evaluateAll scope h operands)
  | .missing id => .error (.of (.notAnExpression id) none)

def evaluateAll (scope : Scope) (h : Heap) : List Tree → Except Fault (List Value)
  | [] => .ok []
  | t :: ts =>
    match evaluate scope h t with
    | .error f => .error f
    | .ok v => (evaluateAll scope h ts).map (v :: ·)

end

def charge {α : Type} (m : Meter) (r : Except Fault α × Meter) : Except Fault α × Meter :=
  match m.tick.overrun? with
  | some budget => (.error (.of (.budgetExceeded budget) none), m.tick)
  | none => r

mutual

def metered (scope : Scope) (h : Heap) : Tree → Meter → Except Fault Value × Meter
  | .apply op operands, m =>
    let r := meteredAll scope h operands m.tick
    charge m (op.applyOperands h r.1, r.2)
  | t, m => charge m (t.evaluate scope h, m.tick)

def meteredAll (scope : Scope) (h : Heap) : List Tree → Meter → Except Fault (List Value) × Meter
  | [], m => (.ok [], m)
  | t :: ts, m =>
    match metered scope h t m with
    | (.error f, m) => (.error f, m)
    | (.ok v, m) =>
      let r := meteredAll scope h ts m
      (r.1.map (v :: ·), r.2)

end

end Tree

theorem Meter.ticks_eq {m : Meter} (hm : m.steps ≤ ceiling) (n : Nat) :
    tick^[n] m = ⟨m.budget, min (n + m.steps) ceiling⟩ := by
  induction n with
  | zero => simp [hm]
  | succ n ih =>
    rw [Function.iterate_succ_apply', ih]
    simp only [tick, mk.injEq, true_and]
    omega

theorem Meter.budget_ticks (m : Meter) (n : Nat) : (tick^[n] m).budget = m.budget := by
  induction n with
  | zero => rfl
  | succ n ih =>
    rw [Function.iterate_succ_apply']
    exact ih

namespace State

variable (s : State) (n : Nat)

theorem ticks_eq : tick^[n] s = { s with meter := Meter.tick^[n] s.meter } := by
  induction n with
  | zero => rfl
  | succ n ih => rw [Function.iterate_succ_apply', Function.iterate_succ_apply', ih, tick]

@[simp] theorem scope_ticks : (tick^[n] s).scope = s.scope := by rw [ticks_eq]

@[simp] theorem heap_ticks : (tick^[n] s).heap = s.heap := by rw [ticks_eq]

@[simp] theorem printer_ticks : (tick^[n] s).printer = s.printer := by rw [ticks_eq]

@[simp] theorem budget_ticks : (tick^[n] s).meter.budget = s.meter.budget := by
  rw [ticks_eq, Meter.budget_ticks]

end State

namespace Tree

variable {α : Type} {scope : Scope} {h : Heap} {t : Tree} {ts : List Tree} {m : Meter} {size : Nat}
  {r : Except Fault α × Meter}

theorem charge_of_unbounded (hm : m.budget = none) : charge m r = r := by
  have ho : m.tick.overrun? = none := by simp [Meter.tick, Meter.overrun?, hm]
  simp only [charge, ho]

def Counts (size : Nat) (m : Meter) (r : Except Fault α × Meter) : Prop :=
  ∃ n ≤ size, r.2 = Meter.tick^[n] m ∧ ∀ a, r.1 = .ok a → n = size

theorem Counts.charge (hr : Counts size m.tick r) : Counts (size + 1) m (charge m r) := by
  unfold Tree.charge
  cases m.tick.overrun? with
  | some budget => exact ⟨1, Nat.le_add_left 1 size, rfl, fun a ha => by cases ha⟩
  | none =>
    obtain ⟨n, hn, hmeter, hall⟩ := hr
    exact ⟨n + 1, Nat.succ_le_succ hn, hmeter, fun a ha => congrArg (· + 1) (hall a ha)⟩

theorem counts_meteredAll (hts : ∀ t ∈ ts, ∀ m, Counts t.size m (t.metered scope h m)) :
    ∀ m, Counts (sizeAll ts) m (meteredAll scope h ts m) := by
  induction ts with
  | nil => exact fun m => ⟨0, Nat.le_refl 0, rfl, fun _ _ => rfl⟩
  | cons t ts ih =>
    intro m
    obtain ⟨n, hn, hmeter, hall⟩ := hts t List.mem_cons_self m
    rw [meteredAll, sizeAll]
    match he : t.metered scope h m with
    | (.error f, meter) =>
      rw [he] at hmeter
      exact ⟨n, by omega, hmeter, fun a ha => by cases ha⟩
    | (.ok v, meter) =>
      rw [he] at hmeter hall
      obtain ⟨k, hk, hmeter', hall'⟩ := ih (fun t ht => hts t (List.mem_cons_of_mem _ ht)) meter
      refine ⟨k + n, by omega, ?_, fun a ha => ?_⟩
      · rw [Function.iterate_add_apply, ← hmeter]
        exact hmeter'
      · cases hr : (meteredAll scope h ts meter).1 with
        | error f =>
          simp only [hr] at ha
          cases ha
        | ok vs =>
          have hn := hall v rfl
          have hk := hall' vs hr
          omega

theorem counts_metered (scope : Scope) (h : Heap) (t : Tree) :
    ∀ m, Counts t.size m (t.metered scope h m) := by
  have hleaf : ∀ (m : Meter) (r : Except Fault Value), Counts 1 m (charge m (r, m.tick)) := fun m r =>
    Counts.charge ⟨0, Nat.le_refl 0, rfl, fun _ _ => rfl⟩
  induction t using induct with
  | var | num | missing => exact fun m => hleaf m _
  | apply op operands ih =>
    intro m
    refine Counts.charge ?_
    obtain ⟨n, hn, hmeter, hall⟩ := counts_meteredAll ih m.tick
    refine ⟨n, hn, hmeter, fun v hv => ?_⟩
    cases hr : (meteredAll scope h operands m.tick).1 with
    | error f =>
      simp only [hr] at hv
      cases hv
    | ok vs => exact hall vs hr

theorem Counts.budget (hr : Counts size m r) : r.2.budget = m.budget := by
  obtain ⟨n, _, hmeter, _⟩ := hr
  rw [hmeter, Meter.budget_ticks]

theorem meteredAll_fst (hts : ∀ t ∈ ts, ∀ m, m.budget = none →
    (t.metered scope h m).1 = t.evaluate scope h) :
    ∀ m, m.budget = none → (meteredAll scope h ts m).1 = evaluateAll scope h ts := by
  induction ts with
  | nil => exact fun _ _ => rfl
  | cons t ts ih =>
    intro m hm
    have ht := hts t List.mem_cons_self m hm
    have hbudget := (counts_metered scope h t m).budget
    rw [meteredAll, evaluateAll, ← ht]
    match he : t.metered scope h m with
    | (.error f, meter) => rfl
    | (.ok v, meter) =>
      rw [he, hm] at hbudget
      exact congrArg (Except.map _) (ih (fun t ht => hts t (List.mem_cons_of_mem _ ht)) meter hbudget)

theorem metered_fst (t : Tree) : ∀ m, m.budget = none →
    (t.metered scope h m).1 = t.evaluate scope h := by
  induction t using induct with
  | var | num | missing =>
    intro m hm
    rw [metered, charge_of_unbounded hm]
    all_goals simp
  | apply op operands ih =>
    intro m hm
    rw [metered, charge_of_unbounded hm, evaluate]
    exact congrArg (op.applyOperands h) (meteredAll_fst ih m.tick hm)

inductive Occurs (name : String) : Tree → Prop
  | var : Occurs name (.var name)
  | operand {op operands t} : t ∈ operands → Occurs name t → Occurs name (.apply op operands)

theorem meteredAll_congr {scope' : Scope}
    (hts : ∀ t ∈ ts, ∀ m, t.metered scope h m = t.metered scope' h m) :
    ∀ m, meteredAll scope h ts m = meteredAll scope' h ts m := by
  induction ts with
  | nil => exact fun _ => rfl
  | cons t ts ih =>
    intro m
    have hrest := ih fun t ht => hts t (List.mem_cons_of_mem _ ht)
    simp only [meteredAll, hts t List.mem_cons_self m, hrest]

theorem metered_congr {scope' : Scope} (t : Tree)
    (hscope : ∀ name, t.Occurs name → scope.find? name = scope'.find? name) :
    ∀ m, t.metered scope h m = t.metered scope' h m := by
  induction t using induct with
  | num | missing => exact fun _ => rfl
  | var name =>
    intro m
    simp only [metered, evaluate, hscope name .var]
  | apply op operands ih =>
    intro m
    have hall : ∀ t ∈ operands, ∀ m, t.metered scope h m = t.metered scope' h m := fun t ht =>
      ih t ht fun name hname => hscope name (.operand ht hname)
    simp only [metered, meteredAll_congr hall]

end Tree

namespace Machine

def leaving (frames : List Frame) (f : Fault) : Fault :=
  { f with operation := f.operation <|> frames.head?.map (·.operation) }

def Arrives (lib : Library) (m : Machine) (frames : List Frame) (s : State) :
    Except Fault Value × Meter → Prop
  | (.ok v, meter) => Reaches lib m ⟨.deliver v, frames, { s with meter }⟩
  | (.error f, meter) => Ends lib m ⟨.error (leaving frames f), { s with meter }⟩

variable {lib : Library} {m m' : Machine} {frames : List Frame} {s : State}
  {r : Except Fault Value × Meter}

theorem Arrives.of_reaches (h : Reaches lib m m') (hm : Arrives lib m' frames s r) :
    Arrives lib m frames s r := by
  match r with
  | (.ok v, meter) => exact Relation.ReflTransGen.trans h hm
  | (.error f, meter) => exact h.ends hm

theorem Arrives.of_next (h : m.step lib = .next m') (hm : Arrives lib m' frames s r) :
    Arrives lib m frames s r :=
  .of_reaches (.of_next h) hm

/-- The machine evaluates a node as the tree is evaluated, whatever waits for it. -/
def Follows (lib : Library) (p : Place) (t : Tree) : Prop :=
  ∀ frames s, Arrives lib ⟨.enter p, frames, s⟩ frames s (t.metered s.scope s.heap s.meter)

theorem step_enter_of_overrun? (lib : Library) (p : Place) (frames : List Frame)
    (ho : s.tick.meter.overrun? = none) :
    (⟨.enter p, frames, s⟩ : Machine).step lib = visit lib p frames s.tick := by
  simp only [step, ho]

theorem step_enter (lib : Library) (p : Place) (frames : List Frame)
    (hs : s.meter.budget = none) :
    (⟨.enter p, frames, s⟩ : Machine).step lib = visit lib p frames s.tick := by
  apply step_enter_of_overrun?
  simp [State.tick, Meter.tick, Meter.overrun?, hs]

theorem arrives_charge {p : Place}
    (h : (⟨.enter p, frames, s⟩ : Machine).step lib = visit lib p frames s.tick →
      Arrives lib ⟨.enter p, frames, s⟩ frames s r) :
    Arrives lib ⟨.enter p, frames, s⟩ frames s (Tree.charge s.meter r) := by
  rw [Tree.charge]
  cases ho : s.meter.tick.overrun? with
  | none => exact h (step_enter_of_overrun? lib p frames ho)
  | some budget =>
    have hstep : (⟨.enter p, frames, s⟩ : Machine).step lib =
        fail frames s.tick (.budgetExceeded budget) := by
      simp only [step, State.tick, ho]
    exact Ends.of_done hstep

variable {graph : Nat} {op : Operation}

theorem leaving_within (f : Fault) (pending : Pending) :
    leaving frames (f.within op) = leaving (⟨graph, op, pending⟩ :: frames) f := by
  cases h : f.operation <;> simp [leaving, Fault.within, h]

def collected (h : Heap) (op : Operation) (done : List Value)
    (r : Except Fault (List Value) × Meter) : Except Fault Value × Meter :=
  (op.applyOperands h (r.1.map (done.reverse ++ ·)), r.2)

theorem arrives_applied {done : List Value} {v : Value} :
    Arrives lib ⟨.deliver v, ⟨graph, op, .operands done []⟩ :: frames, s⟩ frames s
      (collected s.heap op (v :: done) (.ok [], s.meter)) := by
  have hstep : step lib ⟨.deliver v, ⟨graph, op, .operands done []⟩ :: frames, s⟩ =
      settle graph op frames s (op.applyPure s.heap (v :: done).reverse >>= Response.finish) := rfl
  simp only [collected, Except.map, List.append_nil, Operation.applyOperands]
  cases hr : op.applyPure s.heap (v :: done).reverse with
  | ok w =>
    rw [hr] at hstep
    exact Reaches.of_next hstep
  | error cause =>
    rw [hr] at hstep
    exact Ends.of_done hstep

theorem arrives_operand {x : Nat} {xs : List Nat} {t : Tree} {ts : List Tree} {done : List Value}
    (hx : Follows lib ⟨graph, x⟩ t)
    (hrest : ∀ v meter, Arrives lib
      ⟨.deliver v, ⟨graph, op, .operands done xs⟩ :: frames, { s with meter }⟩ frames s
      (collected s.heap op (v :: done) (Tree.meteredAll s.scope s.heap ts meter))) :
    Arrives lib ⟨.enter ⟨graph, x⟩, ⟨graph, op, .operands done xs⟩ :: frames, s⟩ frames s
      (collected s.heap op done (Tree.meteredAll s.scope s.heap (t :: ts) s.meter)) := by
  have hx := hx (⟨graph, op, .operands done xs⟩ :: frames) s
  rw [Tree.meteredAll]
  match he : t.metered s.scope s.heap s.meter with
  | (.error f, meter) =>
    rw [he] at hx
    change Ends lib _ ⟨.error (leaving frames (f.within op)), { s with meter }⟩
    rw [leaving_within]
    exact hx
  | (.ok v, meter) =>
    rw [he] at hx
    have hmap : ∀ vs : Except Fault (List Value), (vs.map (v :: ·)).map (done.reverse ++ ·) =
        vs.map ((v :: done).reverse ++ ·) := by
      rintro (_ | _) <;> simp [Except.map]
    refine .of_reaches hx ?_
    simp only [collected, hmap]
    exact hrest v meter

theorem arrives_rest {tree : Nat → Tree} {xs : List Nat} :
    ∀ {done : List Value} {v : Value} {s : State}, (∀ x ∈ xs, Follows lib ⟨graph, x⟩ (tree x)) →
      Arrives lib ⟨.deliver v, ⟨graph, op, .operands done xs⟩ :: frames, s⟩ frames s
        (collected s.heap op (v :: done) (Tree.meteredAll s.scope s.heap (xs.map tree) s.meter)) := by
  induction xs with
  | nil =>
    intro done v s _
    exact arrives_applied
  | cons x xs ih =>
    intro done v s hall
    refine .of_next rfl (arrives_operand (hall x List.mem_cons_self) ?_)
    intro w meter
    exact @ih (v :: done) w { s with meter } fun y hy => hall y (List.mem_cons_of_mem x hy)

theorem arrives_operands {tree : Nat → Tree} {x : Nat} {xs : List Nat}
    (hall : ∀ y ∈ x :: xs, Follows lib ⟨graph, y⟩ (tree y)) :
    Arrives lib ⟨.enter ⟨graph, x⟩, ⟨graph, op, .operands [] xs⟩ :: frames, s⟩ frames s
      (collected s.heap op [] (Tree.meteredAll s.scope s.heap ((x :: xs).map tree) s.meter)) := by
  refine arrives_operand (hall x List.mem_cons_self) ?_
  intro v meter
  exact @arrives_rest lib frames graph op tree xs [] v { s with meter } fun y hy =>
    hall y (List.mem_cons_of_mem x hy)

theorem collected_nil (h : Heap) (op : Operation) (r : Except Fault (List Value) × Meter) :
    collected h op [] r = (op.applyOperands h r.1, r.2) := by
  obtain ⟨_ | _, _⟩ := r <;> rfl

theorem follows_unfoldTo (depth : Nat) :
    ∀ id, ((lib.graph graph).unfoldTo depth id).Pure →
      Follows lib ⟨graph, id⟩ ((lib.graph graph).unfoldTo depth id) := by
  -- A graph that is unfolded has no cycles left in it: the operands are one level less deep.
  induction depth with
  | zero =>
    intro id hpure
    cases hpure
  | succ depth ih =>
    intro id hpure frames s
    rw [Graph.unfoldTo] at hpure ⊢
    cases hn : (lib.graph graph)[id]? with
    | none =>
      simp only [hn] at hpure
      cases hpure
    | some n =>
      cases n with
      | num value =>
        refine arrives_charge fun hstep => Reaches.of_next ?_
        simp only [visit, Library.node?, hn] at hstep
        exact hstep
      | var name =>
        refine arrives_charge fun hstep => ?_
        simp only [visit, Library.node?, hn] at hstep
        rw [Tree.evaluate]
        cases hv : s.scope.find? name with
        | some v =>
          rw [show s.tick.scope = s.scope from rfl, hv] at hstep
          exact Reaches.of_next hstep
        | none =>
          rw [show s.tick.scope = s.scope from rfl, hv] at hstep
          exact Ends.of_done hstep
      | apply op operands =>
        simp only [hn] at hpure ⊢
        cases hpure with
        | apply hop hlen hall =>
          refine arrives_charge fun hstep => ?_
          simp only [visit, Library.node?, hn] at hstep
          cases operands with
          | nil => cases op <;> cases hop <;> cases hlen
          | cons x xs =>
            rw [Frame.enter.eq_def, if_pos hop] at hstep
            rw [← collected_nil]
            refine .of_next hstep (arrives_operands (s := s.tick) fun y hy => ?_)
            exact ih y (hall _ (List.mem_map_of_mem hy))

theorem leaving_nil (f : Fault) : leaving [] f = f := by
  obtain ⟨cause, message, operation⟩ := f
  cases operation with
  | none | some => rfl

theorem Follows.evaluates_metered {p : Place} {t : Tree} (h : Follows lib p t) (s : State) :
    Evaluates lib p s ⟨(t.metered s.scope s.heap s.meter).1,
      { s with meter := (t.metered s.scope s.heap s.meter).2 }⟩ := by
  have ht := h [] s
  match hr : t.metered s.scope s.heap s.meter with
  | (.ok v, meter) =>
    rw [hr] at ht
    exact Reaches.ends ht (.of_done rfl)
  | (.error f, meter) =>
    rw [hr, Arrives, leaving_nil] at ht
    exact ht

theorem Follows.evaluates {p : Place} {t : Tree} (h : Follows lib p t)
    (hs : s.meter.budget = none) :
    ∃ n ≤ t.size, Evaluates lib p s ⟨t.evaluate s.scope s.heap, State.tick^[n] s⟩ := by
  obtain ⟨n, hn, hmeter, _⟩ := t.counts_metered s.scope s.heap s.meter
  have he := h.evaluates_metered s
  rw [hmeter, Tree.metered_fst t _ hs] at he
  refine ⟨n, hn, ?_⟩
  rw [State.ticks_eq]
  exact he

end Machine

end ReversePolish
