import ReversePolish.Proofs.HeapDiscipline
import ReversePolish.Proofs.Requests

namespace ReversePolish

def Value.toLength (v : Value) : Except Cause Nat := do
  let n ← v.toInteger
  if n < 0 then .error (.negativeLength n)
  else if Heap.maxLength < n.toNat then .error (.arrayTooLarge n.toNat Heap.maxLength)
  else .ok n.toNat

theorem Value.toLength_eq_ok_iff {v : Value} {n : Nat} :
    v.toLength = .ok n ↔ v.toInteger = .ok (n : Int) ∧ n ≤ Heap.maxLength := by
  rw [toLength]
  cases v.toInteger with
  | error cause => simp [bind, Except.bind]
  | ok i =>
    change (if i < 0 then _ else if Heap.maxLength < i.toNat then _ else _) = _ ↔ _
    simp only [Except.ok.injEq]
    split
    · simp only [reduceCtorEq, false_iff]
      omega
    · split
      · simp only [reduceCtorEq, false_iff]
        omega
      · simp only [Except.ok.injEq]
        omega

inductive Content where
  | value (v : Value)
  | zeros (length : Nat)

namespace Content

def effect (name : String) : Content → Effect
  | .value v => .bind name v
  | .zeros length => .bindZeros name length

def toValue (h : Heap) : Content → Value
  | .value v => v
  | .zeros _ => .array h.next

end Content

def Operation.receive {α : Type} (op : Operation) (take : Value → Except Cause α) :
    Except Fault Value → Except Fault α
  | .error f => .error (f.within op)
  | .ok v => (take v).mapError fun cause => .of cause (some op)

/-- What the operations with these operands come to before they look for the name that they bind:
what they evaluate, the content or the failure, and the state. -/
inductive Prepares (lib : Library) (graph : Nat) (s : State) :
    Operation → List Nat → List Request → Except Fault Content → State → Prop
  | alloc (target) : Prepares lib graph s .alloc [target] [] (.ok (.value (.number 0.0))) s
  | define (target body) :
      Prepares lib graph s .define [target, body] []
        (.ok (.value (.deferred .subroutine ⟨graph, body⟩))) s
  | assign {target value result s'} : Returns lib ⟨graph, value⟩ s ⟨result, s'⟩ →
      Prepares lib graph s .assign [target, value] [⟨⟨graph, value⟩, s⟩]
        (Operation.assign.receive (fun v => .ok (.value v)) result) s'
  | allocArray {target length result s'} : Returns lib ⟨graph, length⟩ s ⟨result, s'⟩ →
      Prepares lib graph s .allocArray [target, length] [⟨⟨graph, length⟩, s⟩]
        (Operation.allocArray.receive (fun v => v.toLength.map .zeros) result) s'

def Library.conclude (lib : Library) (op : Operation) (target : Place) (s : State) :
    Except Fault Content → Outcome
  | .error f => ⟨.error f, s⟩
  | .ok c =>
    match lib.targetName op target with
    | .error cause => ⟨.error (.of cause (some op)), s⟩
    | .ok name => ⟨.ok (c.toValue s.heap), s.apply (c.effect name)⟩

def Library.bindTarget (lib : Library) (op : Operation) (target : Place) (h : Heap) (c : Content) :
    Response := do
  let name ← lib.targetName op target
  return (c.effect name, .finish (c.toValue h))

theorem Frame.enter_alloc (lib : Library) (h : Heap) (graph target : Nat) :
    Frame.enter lib graph .alloc [target] =
      lib.bindTarget .alloc ⟨graph, target⟩ h (.value (.number 0.0)) := rfl

theorem Frame.enter_define (lib : Library) (h : Heap) (graph target body : Nat) :
    Frame.enter lib graph .define [target, body] =
      lib.bindTarget .define ⟨graph, target⟩ h (.value (.deferred .subroutine ⟨graph, body⟩)) := rfl

theorem Frame.resume_assign (lib : Library) (scope : Scope) (h : Heap) (graph target : Nat) (v : Value) :
    Frame.resume lib scope h ⟨graph, .assign, .assigned target⟩ v =
      (Except.ok (Content.value v) >>= lib.bindTarget .assign ⟨graph, target⟩ h) := by
  rw [Frame.resume_assigned]
  rfl

theorem Frame.resume_length (lib : Library) (scope : Scope) (h : Heap) (graph target : Nat) (v : Value) :
    Frame.resume lib scope h ⟨graph, .allocArray, .length target⟩ v =
      (v.toLength.map .zeros >>= lib.bindTarget .allocArray ⟨graph, target⟩ h) := by
  simp only [Frame.resume, Value.toLength]
  cases v.toInteger with
  | error cause => rfl
  | ok n =>
    simp only [bind, Except.bind]
    split
    · rfl
    · split <;> rfl

theorem Pending.inspected?_length_eq_some_iff {v : Value} {target x : Nat} :
    Pending.inspected? v (.length target) = some x ↔
      x = target ∧ ∃ c, v.toLength.map Content.zeros = .ok c := by
  simp only [inspected?, Value.toLength]
  cases v.toInteger with
  | error cause => simp [bind, Except.bind, Except.map]
  | ok n =>
    simp only [bind, Except.bind]
    by_cases hneg : n < 0
    · simp [hneg, Except.map, Int.not_le.2 hneg]
    · by_cases hlarge : Heap.maxLength < n.toNat
      · simp [hneg, hlarge, Except.map, Nat.not_le.2 hlarge]
      · simp [hneg, hlarge, Except.map, Int.not_lt.1 hneg, Nat.not_lt.1 hlarge, eq_comm]

namespace Machine

variable {lib : Library} {m : Machine} {graph : Nat} {op : Operation} {target q : Place} {s : State}
  {o : Outcome} {c : Content} {pending : Pending} {take : Value → Except Cause Content}

theorem follow_bindTarget_iff {rs : List Request} :
    Follow lib graph op s rs o (lib.bindTarget op target s.heap c) ↔
      rs = [] ∧ o = lib.conclude op target s (.ok c) := by
  simp only [Library.bindTarget, Library.conclude]
  cases lib.targetName op target with
  | error cause => rfl
  | ok name => rfl

theorem asks_received_iff {rs : List Request} {x : Nat} {v : Value} (hline : pending ≠ .line)
    (hinspected : ∀ v y, pending.inspected? v = some y ↔ y = x ∧ ∃ c, take v = .ok c)
    (hresume : ∀ scope h v, Frame.resume lib scope h ⟨graph, op, pending⟩ v =
      take v >>= lib.bindTarget op ⟨graph, x⟩ h) :
    Asks lib ⟨.deliver v, [⟨graph, op, pending⟩], s⟩ rs o ↔
      rs = [] ∧ (lib.Endless ⟨graph, x⟩ → ∃ f, op.receive take (.ok v) = .error f) ∧
        o = lib.conclude op ⟨graph, x⟩ s (op.receive take (.ok v)) := by
  have hhangs : Hangs lib ⟨.deliver v, [⟨graph, op, pending⟩], s⟩ ↔
      lib.Endless ⟨graph, x⟩ ∧ ∃ c, take v = .ok c := by
    simp only [hangs_deliver_iff hline, hinspected]
    constructor
    · rintro ⟨_, ⟨rfl, hc⟩, hendless⟩
      exact ⟨hendless, hc⟩
    · rintro ⟨hendless, hc⟩
      exact ⟨x, ⟨rfl, hc⟩, hendless⟩
  cases htake : take v with
  | error cause =>
    have hfree : ¬ Hangs lib ⟨.deliver v, [⟨graph, op, pending⟩], s⟩ := by
      rw [hhangs, htake]
      rintro ⟨_, c, ⟨⟩⟩
    rw [asks_deliver_iff hfree, hresume, Operation.receive, htake]
    exact ⟨fun ⟨hrs, ho⟩ => ⟨hrs, fun _ => ⟨_, rfl⟩, ho⟩, fun ⟨hrs, _, ho⟩ => ⟨hrs, ho⟩⟩
  | ok c =>
    rw [Operation.receive, htake]
    by_cases hendless : lib.Endless ⟨graph, x⟩
    · constructor
      · intro h
        exact absurd (hhangs.2 ⟨hendless, c, htake⟩) (h.returns.goes_on _ .refl)
      · rintro ⟨_, hno, _⟩
        obtain ⟨_, ⟨⟩⟩ := hno hendless
    · have hfree : ¬ Hangs lib ⟨.deliver v, [⟨graph, op, pending⟩], s⟩ :=
        fun h => hendless (hhangs.1 h).1
      rw [asks_deliver_iff hfree, hresume, htake]
      refine follow_bindTarget_iff.trans ⟨fun ⟨hrs, ho⟩ => ⟨hrs, fun h => absurd h hendless, ho⟩, ?_⟩
      exact fun ⟨hrs, _, ho⟩ => ⟨hrs, ho⟩

theorem asks_awaited_iff {rs : List Request} {x : Nat} (hline : pending ≠ .line)
    (hinspected : ∀ v y, pending.inspected? v = some y ↔ y = x ∧ ∃ c, take v = .ok c)
    (hresume : ∀ scope h v, Frame.resume lib scope h ⟨graph, op, pending⟩ v =
      take v >>= lib.bindTarget op ⟨graph, x⟩ h) :
    Asks lib ⟨.enter q, [⟨graph, op, pending⟩], s⟩ rs o ↔
      rs = [⟨q, s⟩] ∧ ∃ result s', ReversePolish.Returns lib q s ⟨result, s'⟩ ∧
        (lib.Endless ⟨graph, x⟩ → ∃ f, op.receive take result = .error f) ∧
        o = lib.conclude op ⟨graph, x⟩ s' (op.receive take result) := by
  simp only [asks_enter_iff, asks_received_iff hline hinspected hresume]
  constructor
  · rintro (⟨e, s', he, rfl, rfl⟩ | ⟨v, s', rs', hv, ⟨rfl, hends, rfl⟩, rfl⟩)
    · exact ⟨rfl, _, s', he, fun _ => ⟨_, rfl⟩, rfl⟩
    · exact ⟨rfl, _, s', hv, hends, rfl⟩
  · rintro ⟨rfl, result, s', h, hends, rfl⟩
    cases result with
    | error e => exact .inl ⟨e, s', h, rfl, rfl⟩
    | ok v => exact .inr ⟨v, s', [], h, ⟨rfl, hends, rfl⟩, rfl⟩

theorem asks_at_once_iff {rs : List Request} {p : Place} {operands : List Nat} {x : Nat}
    (hp : lib.node? p = some (.apply op operands)) (hs : s.meter.budget = none)
    (hx : (Node.apply op operands).target? = some x)
    (henter : Frame.enter lib p.graph op operands = lib.bindTarget op ⟨p.graph, x⟩ s.tick.heap c) :
    Asks lib ⟨.enter p, [], s⟩ rs o ↔ rs = [] ∧ ¬ lib.Endless ⟨p.graph, x⟩ ∧
      o = lib.conclude op ⟨p.graph, x⟩ s.tick (.ok c) := by
  by_cases hendless : lib.Endless ⟨p.graph, x⟩
  · constructor
    · intro h
      exact absurd (hangs_enter hp hs hx hendless) (h.returns.goes_on _ .refl)
    · rintro ⟨_, hends, _⟩
      exact absurd hendless hends
  · have hfree : ¬ Hangs lib ⟨.enter p, [], s⟩ := by
      intro h
      obtain ⟨y, hy, hy'⟩ := exists_target_of_hangs hp h
      rw [hx] at hy
      obtain rfl := Option.some.inj hy
      exact hendless hy'
    rw [asks_operation_iff hp hfree hs, henter, follow_bindTarget_iff]
    exact ⟨fun ⟨hrs, ho⟩ => ⟨hrs, hendless, ho⟩, fun ⟨hrs, _, ho⟩ => ⟨hrs, ho⟩⟩

end Machine

inductive Binding : Operation → List Nat → Prop
  | alloc (target) : Binding .alloc [target]
  | define (target body) : Binding .define [target, body]
  | assign (target value) : Binding .assign [target, value]
  | allocArray (target length) : Binding .allocArray [target, length]

section Binding

variable {lib : Library} {p : Place} {op : Operation} {target : Nat} {rest : List Nat} {s : State}
  {o : Outcome}

theorem asks_binding_iff {rs : List Request} (hp : lib.node? p = some (.apply op (target :: rest)))
    (hop : Binding op (target :: rest)) (hs : s.meter.budget = none) :
    Asks lib p s rs o ↔ ∃ r s', Prepares lib p.graph s.tick op (target :: rest) rs r s' ∧
      (lib.Endless ⟨p.graph, target⟩ → ∃ f, r = .error f) ∧
      o = lib.conclude op ⟨p.graph, target⟩ s' r := by
  cases hop with
  | alloc =>
    refine (Machine.asks_at_once_iff hp hs rfl (Frame.enter_alloc ..)).trans ?_
    constructor
    · rintro ⟨rfl, hends, rfl⟩
      exact ⟨_, _, .alloc target, fun h => absurd h hends, rfl⟩
    · rintro ⟨_, _, ⟨⟩, hends, rfl⟩
      refine ⟨rfl, fun h => ?_, rfl⟩
      obtain ⟨_, ⟨⟩⟩ := hends h
  | define _ body =>
    refine (Machine.asks_at_once_iff hp hs rfl (Frame.enter_define ..)).trans ?_
    constructor
    · rintro ⟨rfl, hends, rfl⟩
      exact ⟨_, _, .define target body, fun h => absurd h hends, rfl⟩
    · rintro ⟨_, _, ⟨⟩, hends, rfl⟩
      refine ⟨rfl, fun h => ?_, rfl⟩
      obtain ⟨_, ⟨⟩⟩ := hends h
  | assign _ value =>
    have hfree : ¬ Machine.Hangs lib ⟨.enter p, [], s⟩ := Machine.not_hangs_enter_of_none hp rfl
    refine (Machine.asks_operation_iff hp hfree hs).trans ((Machine.asks_awaited_iff (by simp)
      (fun v y => by simp [Pending.inspected?, eq_comm])
      fun scope h v => Frame.resume_assign lib scope h p.graph target v).trans ?_)
    constructor
    · rintro ⟨rfl, result, s', h, hends, rfl⟩
      exact ⟨_, s', .assign h, hends, rfl⟩
    · rintro ⟨_, s', _ | _ | h | _, hends, rfl⟩
      exact ⟨rfl, _, s', h, hends, rfl⟩
  | allocArray _ length =>
    have hfree : ¬ Machine.Hangs lib ⟨.enter p, [], s⟩ := Machine.not_hangs_enter_of_none hp rfl
    refine (Machine.asks_operation_iff hp hfree hs).trans ((Machine.asks_awaited_iff (by simp)
      (fun v y => Pending.inspected?_length_eq_some_iff)
      fun scope h v => Frame.resume_length lib scope h p.graph target v).trans ?_)
    constructor
    · rintro ⟨rfl, result, s', h, hends, rfl⟩
      exact ⟨_, s', .allocArray h, hends, rfl⟩
    · rintro ⟨_, s', _ | _ | _ | h, hends, rfl⟩
      exact ⟨rfl, _, s', h, hends, rfl⟩

end Binding

theorem Library.targetName_eq_ok_iff {lib : Library} {op : Operation} {p : Place} {name : String} :
    lib.targetName op p = .ok name ↔ lib.node? p = some (.var name) := by
  refine ⟨targetName_eq_ok, fun h => ?_⟩
  rw [targetName, h]

section Conclude

variable {lib : Library} {op : Operation} {target : Place} {s t : State} {r : Except Fault Content}

theorem conclude_eq_error {f : Fault} (h : lib.conclude op target s r = ⟨.error f, t⟩) :
    t = s ∧ (r = .error f ∨ (∃ c, r = .ok c) ∧ ∀ name, lib.node? target ≠ some (.var name)) := by
  unfold Library.conclude at h
  split at h
  · cases h
    exact ⟨rfl, .inl rfl⟩
  · split at h
    · next hcause =>
      cases h
      refine ⟨rfl, .inr ⟨⟨_, rfl⟩, fun name hname => ?_⟩⟩
      rw [Library.targetName_eq_ok_iff.2 hname] at hcause
      cases hcause
    · cases h

theorem conclude_eq_ok {v : Value} (h : lib.conclude op target s r = ⟨.ok v, t⟩) :
    ∃ c name, r = .ok c ∧ lib.node? target = some (.var name) ∧ v = c.toValue s.heap ∧
      t = s.apply (c.effect name) := by
  unfold Library.conclude at h
  split at h
  · cases h
  · split at h
    · cases h
    · next hname =>
      cases h
      exact ⟨_, _, rfl, Library.targetName_eq_ok hname, rfl, rfl⟩

end Conclude

structure State.Binds (name : String) (c : Content) (before after : State) : Prop where
  bound : after.scope.find? name = some (c.toValue before.heap)
  others : ∀ other, other ≠ name → after.scope.find? other = before.scope.find? other
  heap_of_value : ∀ v, c = .value v → after.heap = before.heap
  heap_of_zeros : ∀ n, c = .zeros n → after.heap.next = before.heap.next + 1 ∧
    after.heap.buffer before.heap.next = Array.replicate n 0.0 ∧
    ∀ id < before.heap.next, after.heap.buffer id = before.heap.buffer id
  printer : after.printer = before.printer
  meter : after.meter = before.meter

theorem State.binds_apply (s : State) (name : String) (c : Content) :
    s.Binds name c (s.apply (c.effect name)) := by
  cases c with
  | value v =>
    exact {
      bound := by simp [Content.effect, apply, Content.toValue]
      others := fun other hne => by simp [Content.effect, apply, Ne.symm hne]
      heap_of_value := fun _ _ => rfl
      heap_of_zeros := fun _ h => by cases h
      printer := rfl
      meter := rfl }
  | zeros n =>
    refine {
      bound := by simp [Content.effect, apply, Content.toValue]
      others := fun other hne => by simp [Content.effect, apply, Ne.symm hne]
      heap_of_value := fun _ h => by cases h
      heap_of_zeros := ?_
      printer := rfl
      meter := rfl }
    rintro _ ⟨⟩
    refine ⟨Heap.next_addZeros _ _, ?_, fun id hid => ?_⟩
    · exact (Heap.buffer_add _ _ _).trans (if_pos rfl)
    · exact (Heap.buffer_add _ _ _).trans (if_neg (Nat.ne_of_lt hid))

def State.Housed (s : State) : Prop :=
  ∀ name id, s.scope.find? name = some (.array id) → id < s.heap.next

theorem Evaluates.housed {lib : Library} {p : Place} {s : State} {o : Outcome}
    (h : Evaluates lib p s o) (hs : s.Housed) : o.state.Housed := by
  let I : Invariant lib := HeapDiscipline.invariant lib (· < s.heap.next) s.heap
  have hscope : s.scope.All (Value.Granted (· < s.heap.next) s.heap s.heap) := by
    intro name v hv
    cases v with
    | array id => exact .inl (hs name id hv)
    | _ => trivial
  obtain ⟨_, _, hheap, hleft⟩ := I.ending trivial ⟨.refl _ s.heap, hscope⟩ h
  intro name id hname
  obtain hlt | ⟨_, hlt⟩ := hleft _ _ hname
  · exact Nat.lt_of_lt_of_le hlt hheap.next_le
  · exact hlt

section Prepares

variable {lib : Library} {p : Place} {graph : Nat} {s s' t : State} {op : Operation}
  {operands : List Nat} {rs rs' : List Request} {r r' : Except Fault Content}

theorem Prepares.housed (h : Prepares lib graph s op operands rs r s') (hs : s.Housed) :
    s'.Housed := by
  cases h with
  | alloc | define => exact hs
  | assign h | allocArray h => exact h.evaluates.housed hs

theorem Prepares.unique (h : Prepares lib graph s op operands rs r s')
    (h' : Prepares lib graph s op operands rs' r' t) : r = r' ∧ s' = t := by
  cases h with
  | alloc | define =>
    cases h'
    exact ⟨rfl, rfl⟩
  | assign h =>
    cases h' with
    | assign h' =>
      cases h.unique h'
      exact ⟨rfl, rfl⟩
  | allocArray h =>
    cases h' with
    | allocArray h' =>
      cases h.unique h'
      exact ⟨rfl, rfl⟩

theorem Prepares.error_iff_of_allocArray {target length : Nat} {v : Value}
    (h : Prepares lib graph s .allocArray [target, length] rs r s')
    (hv : Returns lib ⟨graph, length⟩ s ⟨.ok v, s'⟩) :
    (∃ f, r = .error f) ↔ ¬ ∃ n : Nat, v.toInteger = .ok (n : Int) ∧ n ≤ Heap.maxLength := by
  simp only [← Value.toLength_eq_ok_iff]
  cases h with
  | allocArray h =>
    cases h.unique hv
    rw [Operation.receive]
    cases v.toLength with
    | error cause =>
      refine ⟨fun _ => ?_, fun _ => ⟨_, rfl⟩⟩
      rintro ⟨n, ⟨⟩⟩
    | ok n =>
      refine ⟨?_, fun hn => absurd ⟨n, rfl⟩ hn⟩
      rintro ⟨f, ⟨⟩⟩

section Node

variable {target : Nat} {rest : List Nat} {o : Outcome}
  (hprepares : Prepares lib p.graph s.tick op (target :: rest) rs r s')
  (hp : lib.node? p = some (.apply op (target :: rest))) (hop : Binding op (target :: rest))
  (hs : s.meter.budget = none)

include hprepares hp hop hs

theorem Prepares.returns_iff :
    Returns lib p s o ↔ (lib.Endless ⟨p.graph, target⟩ → ∃ f, r = .error f) ∧
      o = lib.conclude op ⟨p.graph, target⟩ s' r := by
  constructor
  · intro ho
    obtain ⟨_, hasks⟩ := Machine.Asks.of_returns ho
    obtain ⟨_, _, h, hends, rfl⟩ := (asks_binding_iff hp hop hs).1 hasks
    obtain ⟨rfl, rfl⟩ := hprepares.unique h
    exact ⟨hends, rfl⟩
  · rintro ⟨hends, rfl⟩
    exact ((asks_binding_iff hp hop hs).2 ⟨r, s', hprepares, hends, rfl⟩).returns

theorem Prepares.fails_iff : (∃ f t, Returns lib p s ⟨.error f, t⟩) ↔ (∃ f, r = .error f) ∨
    ¬ lib.Endless ⟨p.graph, target⟩ ∧ ∀ name, lib.node? ⟨p.graph, target⟩ ≠ some (.var name) := by
  simp only [hprepares.returns_iff hp hop hs]
  constructor
  · rintro ⟨f, t, hends, ho⟩
    obtain ⟨_, hr | ⟨⟨c, rfl⟩, hvar⟩⟩ := conclude_eq_error ho.symm
    · exact .inl ⟨f, hr⟩
    · refine .inr ⟨fun hendless => ?_, hvar⟩
      obtain ⟨_, ⟨⟩⟩ := hends hendless
  · rintro (⟨f, rfl⟩ | ⟨hends, hvar⟩)
    · exact ⟨f, s', fun _ => ⟨f, rfl⟩, rfl⟩
    · generalize ho : lib.conclude op ⟨p.graph, target⟩ s' r = o
      obtain ⟨_ | v, t⟩ := o
      · exact ⟨_, t, fun hendless => absurd hendless hends, rfl⟩
      · obtain ⟨_, name, _, hname, _⟩ := conclude_eq_ok ho
        exact absurd hname (hvar name)

theorem Prepares.succeeds_iff : (∃ v t, Returns lib p s ⟨.ok v, t⟩) ↔ (∃ c, r = .ok c) ∧
    ∃ name, lib.node? ⟨p.graph, target⟩ = some (.var name) := by
  simp only [hprepares.returns_iff hp hop hs]
  constructor
  · rintro ⟨v, t, _, ho⟩
    obtain ⟨c, name, hr, hname, _⟩ := conclude_eq_ok ho.symm
    exact ⟨⟨c, hr⟩, name, hname⟩
  · rintro ⟨⟨c, rfl⟩, name, hname⟩
    refine ⟨c.toValue s'.heap, s'.apply (c.effect name), fun hendless => ?_, ?_⟩
    · exact absurd ⟨_, .var hname⟩ hendless
    · simp only [Library.conclude, Library.targetName_eq_ok_iff.2 hname]

end Node

end Prepares

/-- The operations that bind a name do that and nothing else, or nothing at all. What they evaluate
before that, and whether it can be used, comes before the question whether there is a name to bind.
Only what stands in the place of a name and has a text without end keeps them from an end of their
own, once there is something to bind. -/
theorem bindings_are_all_or_nothing (lib : Library) (p : Place) (op : Operation) (target : Nat)
    (rest : List Nat) (s : State) (hp : lib.node? p = some (.apply op (target :: rest)))
    (hop : Binding op (target :: rest)) (hs : s.meter.budget = none) :
    (∀ rs o, Asks lib p s rs o ↔ ∃ r s',
      Prepares lib p.graph s.tick op (target :: rest) rs r s' ∧
        (lib.Endless ⟨p.graph, target⟩ → ∃ f, r = .error f) ∧
        o = lib.conclude op ⟨p.graph, target⟩ s' r) ∧
    ∀ rs r s', Prepares lib p.graph s.tick op (target :: rest) rs r s' →
      ((∃ f t, Returns lib p s ⟨.error f, t⟩) ↔ (∃ f, r = .error f) ∨
        ¬ lib.Endless ⟨p.graph, target⟩ ∧ ∀ name, lib.node? ⟨p.graph, target⟩ ≠ some (.var name)) ∧
      (∀ length v, op = .allocArray → rest = [length] →
        Returns lib ⟨p.graph, length⟩ s.tick ⟨.ok v, s'⟩ →
        ((∃ f, r = .error f) ↔ ¬ ∃ n : Nat, v.toInteger = .ok (n : Int) ∧ n ≤ Heap.maxLength)) ∧
      (∀ f t, Returns lib p s ⟨.error f, t⟩ → t = s' ∧ ∀ f', r = .error f' → f = f') ∧
      ((∃ v t, Returns lib p s ⟨.ok v, t⟩) ↔ (∃ c, r = .ok c) ∧
        ∃ name, lib.node? ⟨p.graph, target⟩ = some (.var name)) ∧
      ∀ v t, Returns lib p s ⟨.ok v, t⟩ → ∃ c name, r = .ok c ∧
        lib.node? ⟨p.graph, target⟩ = some (.var name) ∧ v = c.toValue s'.heap ∧ s'.Binds name c t ∧
        (s.Housed → ∀ n, c = .zeros n → ∀ other, other ≠ name → t.scope.find? other ≠ some v) := by
  refine ⟨fun rs o => asks_binding_iff hp hop hs, ?_⟩
  intro rs r s' hprepares
  refine ⟨hprepares.fails_iff hp hop hs, ?_, ?_, hprepares.succeeds_iff hp hop hs, ?_⟩
  · rintro length v rfl rfl hv
    exact hprepares.error_iff_of_allocArray hv
  · intro f t h
    obtain ⟨_, ho⟩ := (hprepares.returns_iff hp hop hs).1 h
    obtain ⟨rfl, rfl | ⟨⟨c, rfl⟩, _⟩⟩ := conclude_eq_error ho.symm
    · exact ⟨rfl, fun f' hf => Except.error.inj hf⟩
    · exact ⟨rfl, fun f' hf => by cases hf⟩
  · intro v t h
    obtain ⟨_, ho⟩ := (hprepares.returns_iff hp hop hs).1 h
    obtain ⟨c, name, rfl, hname, rfl, rfl⟩ := conclude_eq_ok ho.symm
    have hbinds := s'.binds_apply name c
    refine ⟨c, name, rfl, hname, rfl, hbinds, ?_⟩
    rintro hhoused n rfl other hne hother
    rw [hbinds.others other hne] at hother
    exact Nat.lt_irrefl _ (hprepares.housed hhoused other _ hother)

theorem bindings_are_all_or_nothing_length :
    ∃ (lib : Library) (s s' t : State),
      Program.read .standard "2 a setq a valloc" = .ok ⟨lib.graph 0, 4⟩ ∧
      s.scope.find? "b" = some (.array 0) ∧ s'.scope.find? "a" = some (.number 2.0) ∧
      Returns lib ⟨0, 4⟩ s ⟨.ok (.array 1), t⟩ ∧ s'.Binds "a" (.zeros 2) t ∧
      ∀ other, other ≠ "a" → t.scope.find? other ≠ some (.array 1) := by
  let lib : Library := ⟨#[#[.num 2.0, .var "a", .apply .assign [1, 0], .var "a",
    .apply .allocArray [3, 2]]]⟩
  let s : State := ⟨Scope.bind {} "b" (.array 0), ⟨#[#[5.0]]⟩, {}, .silent⟩
  have hread : Program.read .standard "2 a setq a valloc" = .ok ⟨lib.graph 0, 4⟩ := by decide +kernel
  have hrun : (evaluate 20 lib ⟨0, 2⟩ s.tick).map
      (fun o => (o.result, o.state.scope.find? "a", o.state.heap.next)) =
      some (.ok (.number 2.0), some (.number 2.0), 1) := by decide +kernel
  obtain ⟨⟨result, s'⟩, ho, hvalues⟩ := Option.map_eq_some_iff.1 hrun
  simp only [Prod.mk.injEq] at hvalues
  obtain ⟨rfl, ha, hnext⟩ := hvalues
  have hplace : lib.Descends ⟨0, 2⟩ := (Program.wellFormed_of_read hread).1.descending
  have hscope : s.tick.scope.Descends lib := Scope.all_empty.bind "b" trivial
  have hprepares : Prepares lib 0 s.tick .allocArray [3, 2] [⟨⟨0, 2⟩, s.tick⟩]
      (.ok (.zeros 2)) s' := by
    have hlength : (Value.number 2.0).toLength = .ok 2 := by decide +kernel
    have hcount : Returns lib ⟨0, 2⟩ s.tick ⟨.ok (.number 2.0), s'⟩ :=
      (Library.legible hplace hscope).returns ⟨20, ho⟩
    have h : Prepares lib 0 s.tick .allocArray [3, 2] _ _ s' := .allocArray hcount
    rwa [Operation.receive, hlength] at h
  have hhoused : s.Housed := by
    intro name id hname
    simp only [s, Scope.find?_bind, Scope.find?_empty] at hname
    split at hname
    · cases hname
      decide
    · cases hname
  obtain ⟨hiff, hall⟩ :=
    bindings_are_all_or_nothing lib ⟨0, 4⟩ .allocArray 3 [2] s rfl (.allocArray 3 2) rfl
  have hreturns : Returns lib ⟨0, 4⟩ s ⟨.ok (.array 1), s'.apply (.bindZeros "a" 2)⟩ := by
    refine ((hiff _ _).2 ⟨_, _, hprepares, fun hendless => ?_, by rw [← hnext]; rfl⟩).returns
    exact absurd ⟨_, .var rfl⟩ hendless
  obtain ⟨_, _, _, _, hbound⟩ := hall _ _ _ hprepares
  obtain ⟨c, name, ⟨⟩, ⟨⟩, _, hbinds, hfresh⟩ := hbound _ _ hreturns
  exact ⟨lib, s, s', _, hread, by simp [s], ha, hreturns, hbinds, hfresh hhoused 2 rfl⟩

end ReversePolish
