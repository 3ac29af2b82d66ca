import ReversePolish.Proofs.Metering
import ReversePolish.Proofs.GraphLaws
import ReversePolish.Proofs.Invariant

/-!
Evaluation under a budget always ends. Every node that is entered costs a step, and between two
nodes a value can only be handed on to the operations that wait for one. The texts that are shown on
the way come to an end too, as long as no operand leads back to its node.
-/

namespace ReversePolish

namespace Graph

def Descending (g : Graph) : Prop :=
  ∀ (id : Nat) (op : Operation) (operands : List Nat), g[id]? = some (.apply op operands) →
    ∀ x ∈ operands, x < id ∨ g[x]? = none

/-- To follow the operands from this node comes to an end, and has this tree for a result. -/
inductive Unfolds (g : Graph) : Nat → Tree → Prop
  | missing {id} : g[id]? = none → Unfolds g id (.missing id)
  | var {id name} : g[id]? = some (.var name) → Unfolds g id (.var name)
  | num {id value} : g[id]? = some (.num value) → Unfolds g id (.num value)
  | apply {id op operands} (tree : Nat → Tree) : g[id]? = some (.apply op operands) →
      (∀ x ∈ operands, Unfolds g x (tree x)) → Unfolds g id (.apply op (operands.map tree))

variable {g : Graph}

theorem WellFormed.descending (hg : g.WellFormed) : g.Descending :=
  fun id op operands hn x hx => .inl ((hg id op operands hn).2 x hx)

theorem unfoldTo_of_missing {id : Nat} (h : g[id]? = none) (depth : Nat) :
    g.unfoldTo depth id = .missing id := by
  cases depth with
  | zero => rfl
  | succ depth => simp [unfoldTo, h]

theorem Descending.unfolds_unfoldTo (hg : g.Descending) :
    ∀ {id depth : Nat}, id < depth → g.Unfolds id (g.unfoldTo depth id) := by
  intro id
  induction id using Nat.strongRecOn with
  | ind id ih =>
    intro depth h
    obtain ⟨d, rfl⟩ := Nat.exists_eq_add_one_of_ne_zero (Nat.ne_zero_of_lt h)
    rw [unfoldTo]
    cases hnode : g[id]? with
    | none => exact .missing hnode
    | some n =>
      cases n with
      | var name => exact .var hnode
      | num value => exact .num hnode
      | apply op operands =>
        refine .apply (g.unfoldTo d) hnode ?_
        intro x hx
        rcases hg id op operands hnode x hx with hlt | hmissing
        · exact ih x hlt (by omega)
        · rw [unfoldTo_of_missing hmissing]
          exact .missing hmissing

theorem Descending.unfolds (hg : g.Descending) (id : Nat) : g.Unfolds id (g.unfold id) := by
  by_cases h : id < g.size
  · exact hg.unfolds_unfoldTo (by omega)
  · have hmissing : g[id]? = none := Array.getElem?_eq_none (by omega)
    rw [unfold, unfoldTo_of_missing hmissing]
    exact .missing hmissing

end Graph

namespace Machine

variable {lib : Library} {m : Machine} {frames : List Frame} {s : State} {B : Nat}

def weight (m : Machine) : Nat :=
  match m.control with
  | .enter _ => m.frames.length
  | .deliver _ => m.frames.length + 1

theorem weight_settle {graph : Nat} {op : Operation} (r : Response) :
    (settle graph op frames s r).All (fun m => m.weight = frames.length + 1) fun _ => True := by
  match r with
  | .ok (effect, .await place pending) => rfl
  | .ok (effect, .finish v) => rfl
  | .error cause => trivial

theorem weight_visit (p : Place) :
    (visit lib p frames s).All (fun m => m.weight = frames.length + 1) fun _ => True :=
  visit_cases (fun _ => trivial) (fun _ => trivial) (fun _ _ _ _ => rfl) (fun _ => rfl) fun _ _ _ =>
    weight_settle _

/-- Twice the steps that are left, since a node that is entered can be left only once. -/
def allowance (B : Nat) (m : Machine) : Nat :=
  2 * (B + 1 - m.state.meter.steps) + m.weight

theorem allowance_step {m' : Machine} (hB : B < Meter.ceiling) (hm : m.state.meter.steps ≤ B)
    (hs : m.step lib = .next m') (hmeter : m'.state.meter = m.charged.meter) :
    allowance B m' < allowance B m := by
  obtain ⟨control, frames, s⟩ := m
  rw [allowance, allowance, hmeter]
  cases control with
  | enter p =>
    have htick : s.tick.meter.steps = s.meter.steps + 1 := by
      simp only [State.tick, Meter.tick]
      change s.meter.steps ≤ B at hm
      omega
    have hweight : m'.weight = frames.length + 1 := by
      have hvisit := @weight_visit lib frames s.tick p
      simp only [step] at hs
      split at hs
      · cases hs
      · rw [hs] at hvisit
        exact hvisit
    change 2 * (B + 1 - s.tick.meter.steps) + m'.weight <
      2 * (B + 1 - s.meter.steps) + frames.length
    change s.meter.steps ≤ B at hm
    omega
  | deliver v =>
    cases frames with
    | nil => cases hs
    | cons f frames =>
      have hweight := @weight_settle frames s f.graph f.operation (f.resume lib s.scope s.heap v)
      change settle f.graph f.operation frames s (f.resume lib s.scope s.heap v) = .next m' at hs
      rw [hs] at hweight
      change m'.weight = frames.length + 1 at hweight
      change 2 * (B + 1 - s.meter.steps) + m'.weight <
        2 * (B + 1 - s.meter.steps) + (frames.length + 1 + 1)
      omega

structure Solvent (B : Nat) (m : Machine) : Prop where
  budget : m.state.meter.budget = some B
  steps : m.state.meter.steps ≤ B

structure Settled (B : Nat) (o : Outcome) : Prop where
  budget : o.state.meter.budget = some B
  steps : o.state.meter.steps ≤ B + 1
  ok : ∀ v, o.result = .ok v → o.state.meter.steps ≤ B

theorem solvent_step (hB : B < Meter.ceiling) (hm : m.Solvent B) :
    (m.step lib).All (fun m' => m'.Solvent B ∧ allowance B m' < allowance B m) (Settled B) := by
  have hnot : m.state.meter.overrun? = none := by
    rw [Meter.overrun?_eq_none_iff, hm.budget]
    rintro _ ⟨⟩
    exact hm.steps
  match ho : m.charged.meter.overrun? with
  | some k =>
    obtain ⟨o, hs, hcut⟩ : ∃ o, m.step lib = .done o ∧ m.CutShort o k := step_of_overrun hnot ho
    obtain rfl : k = B := Option.some.inj (hcut.budget.symm.trans hm.budget)
    rw [hs]
    have hsteps : o.state.meter.steps = k + 1 := by rw [hcut.state, hcut.steps]
    refine ⟨by rw [hcut.state, budget_charged, hm.budget], Nat.le_of_eq hsteps, ?_⟩
    intro v hv
    have hnone : o.cut? = none := by rw [Outcome.cut?, hv]
    rw [hcut.cut] at hnone
    cases hnone
  | none =>
    have hbudget : m.charged.meter.budget = some B := by rw [budget_charged, hm.budget]
    have hsteps : m.charged.meter.steps ≤ B := Meter.overrun?_eq_none_iff.1 ho B hbudget
    have hkeeps : KeepsMeter m.charged.meter (m.step lib) := keepsMeter_step ho
    match hs : m.step lib with
    | .next m' =>
      rw [hs] at hkeeps
      have hmeter : m'.state.meter = m.charged.meter := hkeeps
      refine ⟨⟨by rw [hmeter, hbudget], by rw [hmeter]; exact hsteps⟩, ?_⟩
      exact allowance_step hB hm.steps hs hmeter
    | .done o =>
      rw [hs] at hkeeps
      have hmeter : o.state.meter = m.charged.meter := hkeeps.2
      rw [← hmeter] at hbudget hsteps
      exact ⟨hbudget, Nat.le_succ_of_le hsteps, fun _ _ => hsteps⟩

end Machine

section Evaluation

variable {lib : Library} {p : Place} {s : State} {B : Nat}

theorem evaluates_of_steps_le (lib : Library) (p : Place) (hB : B < Meter.ceiling)
    (hs : s.meter.budget = some B) (hle : s.meter.steps ≤ B) :
    ∃ o, Evaluates lib p s o ∧ Machine.Settled B o :=
  Machine.ends_of_measure (Machine.allowance B) (fun _ => Machine.solvent_step hB)
    (m := { control := .enter p, state := s }) ⟨hs, hle⟩

theorem evaluates_of_lt_steps (lib : Library) (p : Place) (hB : B < Meter.ceiling)
    (hs : s.meter.budget = some B) (hlt : B < s.meter.steps) :
    Evaluates lib p s ⟨.error (.of (.budgetExceeded B) none), s.tick⟩ := by
  have hover : s.tick.meter.overrun? = some B := by
    rw [Meter.overrun?_eq_some_iff]
    exact ⟨hs, Nat.lt_min.2 ⟨Nat.lt_succ_of_lt hlt, hB⟩⟩
  refine ⟨1, Machine.run_succ_of_done ?_⟩
  simp only [Machine.step, hover]
  rfl

end Evaluation

inductive Machine.Shows (lib : Library) : Machine → Place → Prop
  | entered {p op x xs frames s} : lib.node? p = some (.apply op (x :: xs)) → op.binds = true →
      Shows lib ⟨.enter p, frames, s⟩ ⟨p.graph, x⟩
  | resumed {v f x frames s} : f.pending.target? = some x →
      Shows lib ⟨.deliver v, f :: frames, s⟩ ⟨f.graph, x⟩
  | printed {origin body f frames s} : f.pending = .line →
      Shows lib ⟨.deliver (.deferred origin body), f :: frames, s⟩ body

def Legible (lib : Library) (p : Place) (s : State) : Prop :=
  ∀ m q, Machine.Reaches lib { control := .enter p, state := s } m → m.Shows lib q →
    (lib.graph q.graph).Unfolds q.node ((lib.graph q.graph).unfold q.node)

namespace Library

variable {lib : Library} {g : Graph} {p : Place}

def Descends (lib : Library) (p : Place) : Prop :=
  (lib.graph p.graph).Descending

theorem Descends.add (hp : lib.Descends p) (hg : g.Descending) : (lib.add g).Descends p := by
  rw [Descends, graph_add]
  split
  · exact hg
  · exact hp

theorem descends_next (lib : Library) (hg : g.Descending) (id : Nat) :
    (lib.add g).Descends ⟨lib.next, id⟩ := by
  rw [Descends, graph_add_next]
  exact hg

end Library

def Scope.Descends (lib : Library) (s : Scope) : Prop :=
  s.All (Value.Within fun _ => lib.Descends)

theorem Scope.Descends.add {lib : Library} {s : Scope} {g : Graph} (hs : s.Descends lib)
    (hg : g.Descending) : s.Descends (lib.add g) :=
  hs.imp fun _ hv => hv.imp fun _ _ hp => hp.add hg

namespace Library

variable {lib : Library} {p : Place}

def descent (lib : Library) : Invariant lib :=
  .ofPlaces lib.Descends fun hp _ _ => hp

theorem legible {s : State} (hp : lib.Descends p) (hs : s.scope.Descends lib) :
    Legible lib p s := by
  intro m q hm hq
  have hholds : lib.descent.Holds m := (Invariant.holds_start (I := lib.descent) hp hs).reaches hm
  have hdescends : lib.Descends q := by
    cases hq with
    | @entered p => exact hholds.enter p rfl
    | @resumed _ f =>
      obtain ⟨id, operands, hplace, _⟩ := hholds.frames f List.mem_cons_self
      exact hplace
    | printed => exact hholds.deliver _ rfl
  exact Graph.Descending.unfolds hdescends q.node

end Library

structure Interpreter where
  library : Library
  state : State

inductive Call where
  | evaluate (place : Place)
  | run (v : Vocabulary) (text : String)

inductive Call.Returns (i : Interpreter) : Call → Except RunError Value → Interpreter → Prop
  | evaluate {place o} : Evaluates i.library place i.state o → Legible i.library place i.state →
      Returns i (.evaluate place) (o.result.mapError .fault) { i with state := o.state }
  | run {fuel v text r} : runWith fuel v i.library text i.state = some r →
      (∀ p, Program.read v text = .ok p →
        Legible (i.library.add p.graph) ⟨i.library.next, p.root⟩ i.state) →
      Returns i (.run v text) r.result ⟨r.library, r.state⟩

inductive Interpreter.Performs :
    Interpreter → List Call → List (Except RunError Value) → Interpreter → Prop
  | nil (i) : Performs i [] [] i
  | cons {i i' i'' call calls result results} : call.Returns i result i' →
      Performs i' calls results i'' → Performs i (call :: calls) (result :: results) i''

structure Spends {ε : Type} (B : Nat) (s : State) (result : Except ε Value) (s' : State) : Prop where
  budget : s'.meter.budget = some B
  steps_le : s'.meter.steps ≤ max B s.meter.steps + 1
  ok : ∀ v, result = .ok v → s'.meter.steps ≤ B
  beyond : B < s.meter.steps → B < s'.meter.steps

namespace Spends

variable {B : Nat} {lib : Library} {p : Place} {s s' : State}

theorem mapError {r : Except Fault Value} (h : Spends B s r s') :
    Spends B s (r.mapError RunError.fault) s' := by
  refine ⟨h.budget, h.steps_le, ?_, h.beyond⟩
  intro v hv
  cases r with
  | error f => cases hv
  | ok w => exact h.ok w rfl

theorem exists_evaluates (hB : B < Meter.ceiling) (hs : s.meter.budget = some B) (lib : Library)
    (p : Place) : ∃ o, Evaluates lib p s o ∧ Spends B s o.result o.state := by
  by_cases hle : s.meter.steps ≤ B
  · obtain ⟨o, ho, hsettled⟩ := evaluates_of_steps_le lib p hB hs hle
    have hsteps := hsettled.steps
    exact ⟨o, ho, hsettled.budget, by omega, hsettled.ok, by omega⟩
  · have hlt : B < s.meter.steps := by omega
    have htick : s.tick.meter.steps = min (s.meter.steps + 1) Meter.ceiling := rfl
    refine ⟨_, evaluates_of_lt_steps lib p hB hs hlt, hs, ?_, by rintro _ ⟨⟩, ?_⟩
    · change s.tick.meter.steps ≤ _
      omega
    · intro _
      change B < s.tick.meter.steps
      omega

theorem of_evaluates {o : Outcome} (hB : B < Meter.ceiling) (hs : s.meter.budget = some B)
    (h : Evaluates lib p s o) : Spends B s o.result o.state := by
  obtain ⟨o', ho', hspends⟩ := exists_evaluates hB hs lib p
  obtain rfl : o = o' := Machine.Ends.unique h.ends ho'.ends
  exact hspends

end Spends

namespace Call

variable {B : Nat} {i i' : Interpreter} {call : Call} {result : Except RunError Value}

def Descends (lib : Library) : Call → Prop
  | .evaluate place => lib.Descends place
  | .run _ _ => True

theorem Returns.spends (hB : B < Meter.ceiling) (hi : i.state.meter.budget = some B)
    (h : call.Returns i result i') : Spends B i.state result i'.state := by
  cases h with
  | evaluate ho _ => exact (Spends.of_evaluates hB hi ho).mapError
  | run hr _ =>
    obtain ⟨e, _, rfl⟩ | ⟨p, o, _, ho, rfl⟩ := runWith_eq_some hr
    · exact ⟨hi, Nat.le_succ_of_le (Nat.le_max_right _ _), by rintro _ ⟨⟩, id⟩
    · exact (Spends.of_evaluates hB hi ⟨_, ho⟩).mapError

theorem Returns.descends (hi : i.state.scope.Descends i.library)
    (hcall : call.Descends i.library) (h : call.Returns i result i') :
    i'.state.scope.Descends i'.library ∧
      ∀ c : Call, c.Descends i.library → c.Descends i'.library := by
  cases h with
  | evaluate ho _ => exact ⟨(i.library.descent.ending hcall hi ho).state, fun _ => id⟩
  | run hr _ =>
    obtain ⟨e, _, rfl⟩ | ⟨p, o, hp, ho, rfl⟩ := runWith_eq_some hr
    · exact ⟨hi, fun _ => id⟩
    · have hg : p.graph.Descending := (Program.wellFormed_of_read hp).1.descending
      refine ⟨((i.library.add p.graph).descent.ending ?_ (hi.add hg) ⟨_, ho⟩).state, ?_⟩
      · exact i.library.descends_next hg p.root
      · rintro (place | ⟨v, text⟩) hc
        · exact Library.Descends.add hc hg
        · trivial

theorem exists_returns (hB : B < Meter.ceiling) (hi : i.state.meter.budget = some B)
    (hscope : i.state.scope.Descends i.library) (hcall : call.Descends i.library) :
    ∃ result i', call.Returns i result i' := by
  cases call with
  | evaluate place =>
    obtain ⟨o, ho, _⟩ := Spends.exists_evaluates hB hi i.library place
    exact ⟨_, _, .evaluate ho (Library.legible hcall hscope)⟩
  | run v text =>
    match hp : Program.read v text with
    | .error e =>
      have hrun : runWith 0 v i.library text i.state =
          some ⟨.error (.read e), i.library, i.state⟩ := by
        simp only [runWith, hp]
      refine ⟨_, _, .run hrun ?_⟩
      rw [hp]
      rintro _ ⟨⟩
    | .ok p =>
      have hg : p.graph.Descending := (Program.wellFormed_of_read hp).1.descending
      obtain ⟨o, ⟨fuel, ho⟩, _⟩ :=
        Spends.exists_evaluates hB hi (i.library.add p.graph) ⟨i.library.next, p.root⟩
      have hrun : runWith fuel v i.library text i.state =
          some ⟨o.result.mapError .fault, i.library.add p.graph, o.state⟩ := by
        simp only [runWith, hp, ho]
        rfl
      refine ⟨_, _, .run hrun ?_⟩
      rw [hp]
      rintro _ ⟨⟩
      exact Library.legible (i.library.descends_next hg p.root) (hscope.add hg)

end Call

namespace Interpreter

variable {B : Nat} {i i' : Interpreter} {calls : List Call} {results : List (Except RunError Value)}

theorem exists_performs (hB : B < Meter.ceiling) (hi : i.state.meter.budget = some B)
    (hscope : i.state.scope.Descends i.library)
    (hcalls : ∀ call ∈ calls, call.Descends i.library) :
    ∃ results i', Performs i calls results i' := by
  induction calls generalizing i with
  | nil => exact ⟨[], i, .nil i⟩
  | cons call calls ih =>
    have hcall := hcalls call List.mem_cons_self
    obtain ⟨result, i', hr⟩ := Call.exists_returns hB hi hscope hcall
    obtain ⟨hscope', hkept⟩ := hr.descends hscope hcall
    obtain ⟨results, i'', hp⟩ := ih (hr.spends hB hi).budget hscope' fun c hc =>
      hkept c (hcalls c (List.mem_cons_of_mem call hc))
    exact ⟨_, _, .cons hr hp⟩

theorem Performs.scope (h : Performs i calls results i')
    (hscope : i.state.scope.Descends i.library)
    (hcalls : ∀ call ∈ calls, call.Descends i.library) :
    i'.state.scope.Descends i'.library := by
  induction h with
  | nil i => exact hscope
  | @cons i i' i'' call calls result results hr _ ih =>
    obtain ⟨hscope', hkept⟩ := hr.descends hscope (hcalls call List.mem_cons_self)
    exact ih hscope' fun c hc => hkept c (hcalls c (List.mem_cons_of_mem call hc))

theorem Performs.steps_le (hB : B < Meter.ceiling) (hi : i.state.meter.budget = some B) {n : Nat}
    (hn : i.state.meter.steps ≤ B + n) (h : Performs i calls results i') :
    i'.state.meter.budget = some B ∧ i'.state.meter.steps ≤ B + n + calls.length := by
  -- The first call that goes beyond the budget does so by one, and so does every call after it.
  induction h generalizing n with
  | nil i => exact ⟨hi, hn⟩
  | @cons i i' i'' call calls result results hr _ ih =>
    have hs := hr.spends hB hi
    have hsteps := hs.steps_le
    obtain ⟨hbudget, hle⟩ := ih (n := n + 1) hs.budget (by omega)
    refine ⟨hbudget, ?_⟩
    rw [List.length_cons]
    omega

theorem returns_beyond_iff {place : Place} {result : Except RunError Value}
    (hB : B < Meter.ceiling) (hi : i.state.meter.budget = some B) (hlt : B < i.state.meter.steps)
    (hlegible : Legible i.library place i.state) :
    (Call.evaluate place).Returns i result i' ↔
      result = .error (.fault (.of (.budgetExceeded B) none)) ∧
        i' = { i with state := i.state.tick } := by
  have ho := evaluates_of_lt_steps i.library place hB hi hlt
  constructor
  · intro h
    cases h with
    | evaluate ho' _ =>
      obtain rfl := Machine.Ends.unique ho'.ends ho.ends
      exact ⟨rfl, rfl⟩
  · rintro ⟨rfl, rfl⟩
    exact .evaluate ho hlegible

end Interpreter

/-- However often an interpreter with a budget is called, every call returns. It goes beyond the
budget by one step at most, and only if it fails; from then on all that a call does is to count one
more step. -/
theorem bounded_calls_return (B : Nat) (hB : B < Meter.ceiling) (lib : Library) (scope : Scope)
    (heap : Heap) (printer : Printer) (calls : List Call) (hscope : scope.Descends lib)
    (hcalls : ∀ call ∈ calls, call.Descends lib) :
    (∃ results i, Interpreter.Performs ⟨lib, ⟨scope, heap, { budget := some B }, printer⟩⟩ calls
      results i) ∧
    ∀ results i, Interpreter.Performs ⟨lib, ⟨scope, heap, { budget := some B }, printer⟩⟩ calls
        results i →
      i.state.meter.steps ≤ B + calls.length ∧
      (∀ (call : Call) (v : Value) (i' : Interpreter), call.Returns i (.ok v) i' →
        i'.state.meter.steps ≤ B) ∧
      (B < i.state.meter.steps →
        (∀ (call : Call) (result : Except RunError Value) (i' : Interpreter),
          call.Returns i result i' → B < i'.state.meter.steps) ∧
        ∀ place, i.library.Descends place → ∀ result i',
          (Call.evaluate place).Returns i result i' ↔
            result = .error (.fault (.of (.budgetExceeded B) none)) ∧
            i' = ⟨i.library, i.state.scope, i.state.heap,
              ⟨some B, min (i.state.meter.steps + 1) Meter.ceiling⟩, i.state.printer⟩) := by
  let start : Interpreter := ⟨lib, ⟨scope, heap, { budget := some B }, printer⟩⟩
  refine ⟨Interpreter.exists_performs (i := start) hB rfl hscope hcalls, ?_⟩
  intro results i h
  obtain ⟨hbudget, hsteps⟩ := h.steps_le hB rfl (n := 0) (Nat.zero_le _)
  refine ⟨hsteps, fun call v i' hr => (hr.spends hB hbudget).ok v rfl, fun hlt => ⟨?_, ?_⟩⟩
  · intro call result i' hr
    exact (hr.spends hB hbudget).beyond hlt
  · intro place hplace result i'
    have hlegible := Library.legible hplace (h.scope hscope hcalls)
    have htick : i.state.tick = ⟨i.state.scope, i.state.heap,
        ⟨some B, min (i.state.meter.steps + 1) Meter.ceiling⟩, i.state.printer⟩ := by
      simp only [State.tick, Meter.tick, hbudget]
    rw [Interpreter.returns_beyond_iff hB hbudget hlt hlegible, htick]

theorem bounded_calls_return_loop :
    ∃ p i i', Program.read .standard "nop nop nop = while" = .ok p ∧
      Interpreter.Performs ⟨Library.add {} p.graph, ⟨{}, {}, { budget := some 3 }, .silent⟩⟩
        [.evaluate ⟨0, p.root⟩] [.error (.fault (.of (.budgetExceeded 3) (some .eq)))] i ∧
      i.state.meter.steps = 4 ∧
      (Call.evaluate ⟨0, p.root⟩).Returns i (.error (.fault (.of (.budgetExceeded 3) none))) i' ∧
      i'.state.meter.steps = 5 := by
  let g : Graph := #[.apply .nop [], .apply .nop [], .apply .nop [], .apply .eq [2, 1],
    .apply .whileLoop [3, 0]]
  have hread : Program.read .standard "nop nop nop = while" = .ok ⟨g, 4⟩ := rfl
  let lib : Library := Library.add {} g
  let s : State := ⟨{}, {}, { budget := some 3 }, .silent⟩
  let cut : Outcome := ⟨.error (.of (.budgetExceeded 3) (some .eq)), ⟨{}, {}, ⟨some 3, 4⟩, .silent⟩⟩
  have hscope : Scope.Descends lib {} := Scope.all_empty
  have hloop : lib.Descends ⟨0, 4⟩ :=
    Library.descends_next {} (Program.wellFormed_of_read hread).1.descending 4
  have hcut : evaluate 9 lib ⟨0, 4⟩ s = some cut := rfl
  have hfirst : Interpreter.Performs ⟨lib, s⟩ [.evaluate ⟨0, 4⟩] [cut.result.mapError .fault]
      ⟨lib, cut.state⟩ := .cons (.evaluate ⟨9, hcut⟩ (Library.legible hloop hscope)) (.nil _)
  obtain ⟨_, hall⟩ := bounded_calls_return 3 (by decide) lib {} {} .silent [.evaluate ⟨0, 4⟩] hscope
    (by simpa [Call.Descends] using hloop)
  obtain ⟨_, _, hbeyond⟩ := hall _ _ hfirst
  have hsecond : (Call.evaluate ⟨0, 4⟩).Returns ⟨lib, cut.state⟩
      (.error (.fault (.of (.budgetExceeded 3) none))) ⟨lib, ⟨{}, {}, ⟨some 3, 5⟩, .silent⟩⟩ :=
    ((hbeyond (by decide)).2 ⟨0, 4⟩ hloop _ _).2 ⟨rfl, rfl⟩
  exact ⟨_, _, _, hread, hfirst, rfl, hsecond, rfl⟩

end ReversePolish
