import ReversePolish.Proofs.FrameLaws
import ReversePolish.Proofs.RunLaws

/-!
Properties that evaluation keeps. A property of places, of values and of states that is closed under
what single operations do is kept by every run. The operations are gone through once, here.
-/

namespace ReversePolish

def Operation.binds : Operation → Bool
  | .alloc | .allocArray | .assign | .define | .forLoop => true
  | _ => false

namespace Pending

def values : Pending → List Value
  | .operands done _ => done
  | .test _ _ last => last.toList
  | _ => []

inductive Suits (lib : Library) (graph : Nat) : Operation → List Nat → Pending → Prop
  | operands {op operands done rest} : op.isPure = true → rest <:+ operands →
      done.length + rest.length + 1 = operands.length →
      Suits lib graph op operands (.operands done rest)
  | length (target count) : Suits lib graph .allocArray [target, count] (.length target)
  | assigned (target value) : Suits lib graph .assign [target, value] (.assigned target)
  | element (array index value) :
      Suits lib graph .store [array, index, value] (.element array index)
  | index (array index value x) : Suits lib graph .store [array, index, value] (.index array x)
  | array (array index value i x) : Suits lib graph .store [array, index, value] (.array i x)
  | sequence {op operands rest} : op ∈ [Operation.prog2, .prog3, .prog4] → rest <:+ operands →
      Suits lib graph op operands (.sequence rest)
  | condition (condition yes no) :
      Suits lib graph .branch [condition, yes, no] (.condition yes no)
  | chosen (condition yes no) : Suits lib graph .branch [condition, yes, no] .result
  | check (condition body) : Suits lib graph .whileLoop [condition, body] (.check condition body)
  | test (condition body last) :
      Suits lib graph .whileLoop [condition, body] (.test condition body last)
  | pass (condition body) : Suits lib graph .whileLoop [condition, body] (.pass condition body)
  | start {index first stop body name} : lib.node? ⟨graph, index⟩ = some (.var name) →
      Suits lib graph .forLoop [index, first, stop, body] (.start name stop body)
  | stop {index first stop body name} (i) : lib.node? ⟨graph, index⟩ = some (.var name) →
      Suits lib graph .forLoop [index, first, stop, body] (.stop name i body)
  | count {index first stop body name} (i j) : lib.node? ⟨graph, index⟩ = some (.var name) →
      Suits lib graph .forLoop [index, first, stop, body] (.count name i j body)
  | callee (target) : Suits lib graph .call [target] .callee
  | called (target) : Suits lib graph .call [target] .result
  | line (value) : Suits lib graph .print [value] .line

variable {lib : Library} {graph : Nat} {op : Operation} {operands : List Nat}

theorem Suits.target_mem {pending : Pending} {x : Nat} (h : pending.Suits lib graph op operands)
    (hx : pending.target? = some x) : x ∈ operands := by
  cases h with
  | length | assigned =>
    obtain rfl := Option.some.inj hx
    exact List.mem_cons_self
  | _ => cases hx

theorem Suits.isPure {done : List Value} {rest : List Nat}
    (h : Suits lib graph op operands (.operands done rest)) :
    op.isPure = true ∧ done.length + rest.length + 1 = operands.length := by
  cases h with
  | operands hpure _ hlen => exact ⟨hpure, hlen⟩

end Pending

def Library.Binds (lib : Library) (place : Place → Prop) (name : String) : Prop :=
  ∃ p op target rest, place p ∧ op.binds = true ∧
    lib.node? p = some (.apply op (target :: rest)) ∧
    lib.node? ⟨p.graph, target⟩ = some (.var name)

structure Invariant (lib : Library) where
  place : Place → Prop
  value : Heap → Value → Prop
  state : State → Prop
  operand {p op operands x} : place p → lib.node? p = some (.apply op operands) → x ∈ operands →
    place ⟨p.graph, x⟩
  callee {h p} : value h (.deferred .subroutine p) → place p
  scalar {h v} : v.IsScalar → value h v
  nop {h} : value h .nop
  fresh {s} (length) : state s → value (s.heap.addZeros length) (.array s.heap.next)
  subroutine {h p target body} : place p → lib.node? p = some (.apply .define [target, body]) →
    value h (.deferred .subroutine ⟨p.graph, body⟩)
  whileBody {h p condition body} : place p →
    lib.node? p = some (.apply .whileLoop [condition, body]) →
    value h (.deferred .loopBody ⟨p.graph, body⟩)
  forBody {h p index first stop body} : place p →
    lib.node? p = some (.apply .forLoop [index, first, stop, body]) →
    value h (.deferred .loopBody ⟨p.graph, body⟩)
  value_addZeros {h v} (length) : value h v → value (h.addZeros length) v
  value_set {h v} (id index x) : value h v → value (h.set id index x) v
  lookup {s p name v} : state s → place p → lib.node? p = some (.var name) →
    s.scope.find? name = some v → value s.heap v
  tick {s} : state s → state s.tick
  bind {s name v} : state s → lib.Binds place name → value s.heap v →
    state (s.apply (.bind name v))
  bindZeros {s name length} : state s → lib.Binds place name → length ≤ Heap.maxLength →
    state (s.apply (.bindZeros name length))
  store {s id index} (x) : state s → value s.heap (.array id) → index < s.heap.length id →
    state (s.apply (.store id index x))
  println {s v} : state s → value s.heap v → state (s.apply (.println (v.render lib s.heap)))

namespace Invariant

variable {lib : Library} (I : Invariant lib)

def Waiting (h : Heap) (graph : Nat) (op : Operation) (operands : List Nat) (pending : Pending) :
    Prop :=
  pending.Suits lib graph op operands ∧ ∀ v ∈ pending.values, I.value h v

def Answers (graph : Nat) (op : Operation) (operands : List Nat) (s : State) : Response → Prop
  | .ok (e, .await q pending) =>
    I.state (s.apply e) ∧ I.place q ∧ I.Waiting (s.apply e).heap graph op operands pending
  | .ok (e, .finish v) => I.state (s.apply e) ∧ I.value (s.apply e).heap v
  | .error _ => True

inductive Failure : Cause → Prop
  | budget (limit) : Failure (.budgetExceeded limit)
  | unbound (name) : Failure (.missingVariable name)
  | missing {p} : I.place p → lib.node? p = none → Failure (.notAnExpression p.node)
  | entering {p op operands cause} : I.place p → lib.node? p = some (.apply op operands) →
      Frame.enter lib p.graph op operands = .error cause → Failure cause
  | resuming {p op operands pending scope h v cause} : I.place p →
      lib.node? p = some (.apply op operands) → pending.Suits lib p.graph op operands →
      Frame.resume lib scope h ⟨p.graph, op, pending⟩ v = .error cause → Failure cause

def Suspended (h : Heap) (f : Frame) : Prop :=
  ∃ id operands, I.place ⟨f.graph, id⟩ ∧
    lib.node? ⟨f.graph, id⟩ = some (.apply f.operation operands) ∧
    I.Waiting h f.graph f.operation operands f.pending

structure Holds (m : Machine) : Prop where
  enter : ∀ p, m.control = .enter p → I.place p
  deliver : ∀ v, m.control = .deliver v → I.value m.state.heap v
  frames : ∀ f ∈ m.frames, I.Suspended m.state.heap f
  state : I.state m.state

structure Ending (o : Outcome) : Prop where
  value : ∀ v, o.result = .ok v → I.value o.state.heap v
  failure : ∀ f, o.result = .error f → I.Failure f.cause
  state : I.state o.state

variable {I} {p : Place} {op : Operation} {operands : List Nat} {pending : Pending} {s : State}
  {v : Value}

theorem value_apply (e : Effect) (hv : I.value s.heap v) : I.value (s.apply e).heap v := by
  cases e with
  | bindZeros name length => exact I.value_addZeros length hv
  | store id index x => exact I.value_set id index x hv
  | _ => exact hv

theorem Suspended.apply {f : Frame} (e : Effect) (h : I.Suspended s.heap f) :
    I.Suspended (s.apply e).heap f := by
  obtain ⟨id, operands, hp, hn, hw, hkept⟩ := h
  exact ⟨id, operands, hp, hn, hw, fun v hv => value_apply e (hkept v hv)⟩

theorem answers_await {q : Place} (hs : I.state s) (hq : I.place q)
    (hw : pending.Suits lib p.graph op operands) (hv : ∀ v ∈ pending.values, I.value s.heap v) :
    I.Answers p.graph op operands s (.ok (.none, .await q pending)) :=
  ⟨hs, hq, hw, hv⟩

theorem answers_bind {α : Type} {x : Except Cause α} {f : α → Response}
    (h : ∀ a, x = .ok a → I.Answers p.graph op operands s (f a)) :
    I.Answers p.graph op operands s (x >>= f) := by
  cases x with
  | error cause => trivial
  | ok a => exact h a rfl

theorem answers_enter (hp : I.place p) (hn : lib.node? p = some (.apply op operands))
    (hs : I.state s) : I.Answers p.graph op operands s (Frame.enter lib p.graph op operands) := by
  have operand : ∀ x ∈ operands, I.place ⟨p.graph, x⟩ := fun x => I.operand hp hn
  rw [Frame.enter.eq_def]
  split
  · next hpure =>
    cases operands with
    | nil => trivial
    | cons x xs =>
      exact answers_await hs (operand x (by simp)) (.operands hpure (List.suffix_cons x xs) (by simp))
        (by simp [Pending.values])
  · split
    · next target _ =>
      apply answers_bind
      intro name ht
      have hb : lib.Binds I.place name :=
        ⟨p, _, target, [], hp, rfl, hn, Library.targetName_eq_ok ht⟩
      exact ⟨I.bind hs hb (I.scalar trivial), I.scalar trivial⟩
    · exact answers_await hs (operand _ (by simp)) (.length _ _) (by simp [Pending.values])
    · exact answers_await hs (operand _ (by simp)) (.assigned _ _) (by simp [Pending.values])
    · exact answers_await hs (operand _ (by simp)) (.element _ _ _) (by simp [Pending.values])
    · exact answers_await hs (operand _ (by simp)) (.sequence (by simp) (List.suffix_cons _ _))
        (by simp [Pending.values])
    · exact answers_await hs (operand _ (by simp)) (.sequence (by simp) (List.suffix_cons _ _))
        (by simp [Pending.values])
    · exact answers_await hs (operand _ (by simp)) (.sequence (by simp) (List.suffix_cons _ _))
        (by simp [Pending.values])
    · exact answers_await hs (operand _ (by simp)) (.condition _ _ _) (by simp [Pending.values])
    · exact answers_await hs (operand _ (by simp)) (.check _ _) (by simp [Pending.values])
    · next index first stop body _ =>
      apply answers_bind
      intro name ht
      exact answers_await hs (operand _ (by simp)) (.start (Library.targetName_eq_ok ht))
        (by simp [Pending.values])
    · next target body _ =>
      apply answers_bind
      intro name ht
      have hb : lib.Binds I.place name :=
        ⟨p, _, target, [body], hp, rfl, hn, Library.targetName_eq_ok ht⟩
      exact ⟨I.bind hs hb (I.subroutine hp hn), I.subroutine hp hn⟩
    · exact answers_await hs (operand _ (by simp)) (.callee _) (by simp [Pending.values])
    · exact answers_await hs (operand _ (by simp)) (.line _) (by simp [Pending.values])
    · exact ⟨hs, I.nop⟩
    · trivial

theorem answers_count {index first stop body : Nat} {name : String} {next last : Int}
    {done : Option Value} (hp : I.place p)
    (hn : lib.node? p = some (.apply .forLoop [index, first, stop, body]))
    (hi : lib.node? ⟨p.graph, index⟩ = some (.var name)) (hv : ∀ v ∈ done, I.value s.heap v)
    (hs : I.state s) :
    I.Answers p.graph .forLoop [index, first, stop, body] s
      (Frame.count p.graph name next last body done) := by
  rw [Frame.count]
  split
  · have hb : lib.Binds I.place name := ⟨p, _, index, [first, stop, body], hp, rfl, hn, hi⟩
    exact ⟨I.bind hs hb (I.scalar trivial), I.operand hp hn (by simp), .count _ _ hi,
      by simp [Pending.values]⟩
  · cases done with
    | none => exact ⟨hs, I.forBody hp hn⟩
    | some v => exact ⟨hs, hv v rfl⟩

theorem answers_resume (hp : I.place p) (hn : lib.node? p = some (.apply op operands))
    (hw : I.Waiting s.heap p.graph op operands pending) (hv : I.value s.heap v)
    (hs : I.state s) :
    I.Answers p.graph op operands s (Frame.resume lib s.scope s.heap ⟨p.graph, op, pending⟩ v) := by
  have operand : ∀ x ∈ operands, I.place ⟨p.graph, x⟩ := fun x => I.operand hp hn
  obtain ⟨hw, hkept⟩ := hw
  cases hw with
  | @operands _ _ done rest hpure hrest hlen =>
    cases rest with
    | nil =>
      apply answers_bind
      intro result hr
      exact ⟨hs, I.scalar (Operation.isScalar_applyPure hr)⟩
    | cons x xs =>
      refine answers_await hs (operand x (hrest.subset (by simp))) (.operands hpure ?_ ?_) ?_
      · exact (List.suffix_cons x xs).trans hrest
      · simp only [List.length_cons] at hlen ⊢
        omega
      · simpa [Pending.values] using ⟨hv, hkept⟩
  | length target count =>
    apply answers_bind
    intro n _
    split
    · trivial
    · split
      · trivial
      · apply answers_bind
        intro name ht
        have hb : lib.Binds I.place name :=
          ⟨p, _, target, [count], hp, rfl, hn, Library.targetName_eq_ok ht⟩
        exact ⟨I.bindZeros hs hb (by omega), I.fresh _ hs⟩
  | assigned target value =>
    rw [Frame.resume_assigned]
    apply answers_bind
    intro name ht
    have hb : lib.Binds I.place name :=
      ⟨p, _, target, [value], hp, rfl, hn, Library.targetName_eq_ok ht⟩
    exact ⟨I.bind hs hb hv, hv⟩
  | element array index value =>
    apply answers_bind
    intro x _
    exact answers_await hs (operand _ (by simp)) (.index _ _ _ _) (by simp [Pending.values])
  | index array index value x =>
    apply answers_bind
    intro i _
    split
    · trivial
    · exact answers_await hs (operand _ (by simp)) (.array _ _ _ _ _) (by simp [Pending.values])
  | array array index value i x =>
    simp only [Frame.resume]
    split
    · split
      · next id hi => exact ⟨I.store x hs hv hi, I.value_set id i x hv⟩
      · trivial
    · trivial
  | @sequence _ _ rest hop hrest =>
    cases rest with
    | nil => exact ⟨hs, hv⟩
    | cons x xs =>
      exact answers_await hs (operand x (hrest.subset (by simp)))
        (.sequence hop ((List.suffix_cons x xs).trans hrest)) (by simp [Pending.values])
  | condition condition yes no =>
    simp only [Frame.resume]
    split
    · next b =>
      refine answers_await hs (operand _ ?_) (.chosen _ _ _) (by simp [Pending.values])
      cases b <;> simp
    · trivial
  | chosen condition yes no => exact ⟨hs, hv⟩
  | check condition body =>
    simp only [Frame.resume]
    split
    · exact answers_await hs (operand _ (by simp)) (.test _ _ _) (by simp [Pending.values])
    · trivial
  | test condition body last =>
    simp only [Frame.resume]
    split
    · exact answers_await hs (operand _ (by simp)) (.pass _ _) (by simp [Pending.values])
    · cases last with
      | none => exact ⟨hs, I.whileBody hp hn⟩
      | some w => exact ⟨hs, hkept w (by simp [Pending.values])⟩
    · trivial
  | pass condition body =>
    exact answers_await hs (operand _ (by simp)) (.test _ _ _) (by simpa [Pending.values] using hv)
  | start hi =>
    apply answers_bind
    intro i _
    exact answers_await hs (operand _ (by simp)) (.stop _ hi) (by simp [Pending.values])
  | stop first hi =>
    apply answers_bind
    intro last _
    exact answers_count hp hn hi (by simp) hs
  | count next last hi => exact answers_count hp hn hi (by simpa using hv) hs
  | callee target =>
    simp only [Frame.resume]
    split
    · exact answers_await hs (I.callee hv) (.called _) (by simp [Pending.values])
    · trivial
  | called target => exact ⟨hs, hv⟩
  | line value => exact ⟨I.println hs hv, hv⟩

theorem all_fail {frames : List Frame} {cause : Cause} (hs : I.state s) (hc : I.Failure cause) :
    (Machine.fail frames s cause).All I.Holds I.Ending where
  value := by rintro _ ⟨⟩
  failure := by
    rintro _ ⟨⟩
    exact hc
  state := hs

theorem all_settle {frames : List Frame} {r : Response}
    (hframes : ∀ f ∈ frames, I.Suspended s.heap f) (hp : I.place p)
    (hn : lib.node? p = some (.apply op operands)) (hs : I.state s)
    (hr : I.Answers p.graph op operands s r) (hc : ∀ cause, r = .error cause → I.Failure cause) :
    (Machine.settle p.graph op frames s r).All I.Holds I.Ending := by
  match r with
  | .error cause =>
    exact ⟨by rintro _ ⟨⟩, by rintro _ ⟨⟩; exact hc cause rfl, hs⟩
  | .ok (effect, .finish v) =>
    refine ⟨by rintro _ ⟨⟩, ?_, fun f hf => (hframes f hf).apply effect, hr.1⟩
    rintro _ ⟨⟩
    exact hr.2
  | .ok (effect, .await q pending) =>
    obtain ⟨hs', hq, hw⟩ := hr
    refine ⟨?_, by rintro _ ⟨⟩, ?_, hs'⟩
    · rintro _ ⟨⟩
      exact hq
    · intro f hf
      cases hf with
      | head => exact ⟨p.node, operands, hp, hn, hw⟩
      | tail _ hf => exact (hframes f hf).apply effect

theorem all_visit {frames : List Frame} (hframes : ∀ f ∈ frames, I.Suspended s.heap f) (hp : I.place p)
    (hs : I.state s) : (Machine.visit lib p frames s).All I.Holds I.Ending := by
  have hdeliver : ∀ v, I.value s.heap v → I.Holds ⟨.deliver v, frames, s⟩ := by
    intro v hv
    refine ⟨by rintro _ ⟨⟩, ?_, hframes, hs⟩
    rintro _ ⟨⟩
    exact hv
  apply Machine.visit_cases
  · exact fun hn => all_fail hs (.missing hp hn)
  · exact fun name => all_fail hs (.unbound name)
  · exact fun name v hn hv => hdeliver v (I.lookup hs hp hn hv)
  · exact fun x => hdeliver _ (I.scalar trivial)
  · intro op operands hn
    exact all_settle hframes hp hn hs (answers_enter hp hn hs) fun cause => .entering hp hn

theorem all_step {m : Machine} (h : I.Holds m) : (m.step lib).All I.Holds I.Ending := by
  obtain ⟨control, frames, s⟩ := m
  obtain ⟨henter, hdeliver, hframes, hs⟩ := h
  cases control with
  | enter q =>
    simp only [Machine.step]
    split
    · exact all_fail (I.tick hs) (.budget _)
    · exact all_visit hframes (henter q rfl) (I.tick hs)
  | deliver v =>
    have hv : I.value s.heap v := hdeliver v rfl
    match frames with
    | [] => exact ⟨by rintro _ ⟨⟩; exact hv, by rintro _ ⟨⟩, hs⟩
    | ⟨graph, op, pending⟩ :: frames =>
      obtain ⟨id, operands, hp, hn, hw⟩ := hframes _ List.mem_cons_self
      have hrest : ∀ f ∈ frames, I.Suspended s.heap f := fun f hf =>
        hframes f (List.mem_cons_of_mem _ hf)
      exact all_settle (p := ⟨graph, id⟩) hrest hp hn hs (answers_resume hp hn hw hv hs)
        fun cause => .resuming hp hn hw.1

theorem holds_start (hp : I.place p) (hs : I.state s) :
    I.Holds { control := .enter p, state := s } := by
  refine ⟨?_, by rintro _ ⟨⟩, by simp, hs⟩
  rintro _ ⟨⟩
  exact hp

theorem Holds.reaches {m m' : Machine} (hm : I.Holds m) (h : Machine.Reaches lib m m') :
    I.Holds m' := by
  induction h with
  | refl => exact hm
  | tail _ hs ih =>
    have hstep := all_step ih
    rw [hs] at hstep
    exact hstep

theorem ending {o : Outcome} (hp : I.place p) (hs : I.state s) (h : Evaluates lib p s o) :
    I.Ending o :=
  Machine.run_invariant (fun _ => all_step) h.ends (holds_start hp hs)

end Invariant

namespace Scope

variable {P Q : Value → Prop} {s : Scope}

def All (P : Value → Prop) (s : Scope) : Prop :=
  ∀ name v, s.find? name = some v → P v

theorem all_empty : All P {} := by
  intro name v hv
  simp at hv

theorem All.imp (hs : s.All P) (h : ∀ v, P v → Q v) : s.All Q :=
  fun name v hv => h v (hs name v hv)

theorem All.bind {v : Value} (hs : s.All P) (name : String) (hv : P v) : (s.bind name v).All P := by
  intro other w hw
  rw [find?_bind] at hw
  split at hw
  · obtain rfl := Option.some.inj hw
    exact hv
  · exact hs other w hw

def AllOf (seen : String → Prop) (P : Value → Prop) (s : Scope) : Prop :=
  ∀ name, seen name → ∀ v, s.find? name = some v → P v

theorem All.allOf (hs : s.All P) (seen : String → Prop) : s.AllOf seen P :=
  fun name _ => hs name

theorem AllOf.bind {seen : String → Prop} {v : Value} (hs : s.AllOf seen P) (name : String)
    (hv : P v) : (s.bind name v).AllOf seen P := by
  intro other hseen w hw
  rw [find?_bind] at hw
  split at hw
  · obtain rfl := Option.some.inj hw
    exact hv
  · exact hs other hseen w hw

end Scope

def Value.Within (allowed : Origin → Place → Prop) : Value → Prop
  | .deferred origin body => allowed origin body
  | _ => True

theorem Value.Within.imp {allowed allowed' : Origin → Place → Prop} {v : Value}
    (hv : v.Within allowed) (h : ∀ origin body, allowed origin body → allowed' origin body) :
    v.Within allowed' := by
  cases v with
  | deferred origin body => exact h origin body hv
  | _ => trivial

namespace Invariant

variable {lib : Library}

/-- Of deferred values and the places that they lead to. All the other values are let through, and
so are the bindings that are not looked up. -/
def ofBindings (place : Place → Prop) (allowed : Origin → Place → Prop) (kept : Scope → Prop)
    (lookup : ∀ {s p name v}, kept s → place p → lib.node? p = some (.var name) →
      s.find? name = some v → v.Within allowed)
    (bind : ∀ {s name v}, kept s → v.Within allowed → kept (s.bind name v))
    (operand : ∀ {p op operands x}, place p → lib.node? p = some (.apply op operands) →
      x ∈ operands → place ⟨p.graph, x⟩)
    (callee : ∀ {p}, allowed .subroutine p → place p)
    (subroutine : ∀ {p target body}, place p →
      lib.node? p = some (.apply .define [target, body]) → allowed .subroutine ⟨p.graph, body⟩)
    (whileBody : ∀ {p condition body}, place p →
      lib.node? p = some (.apply .whileLoop [condition, body]) → allowed .loopBody ⟨p.graph, body⟩)
    (forBody : ∀ {p index first stop body}, place p →
      lib.node? p = some (.apply .forLoop [index, first, stop, body]) →
      allowed .loopBody ⟨p.graph, body⟩) : Invariant lib where
  place := place
  value _ v := v.Within allowed
  state s := kept s.scope
  operand := operand
  callee := callee
  scalar {_ v} hv := by
    cases v with
    | deferred _ _ => exact hv.elim
    | _ => trivial
  nop := trivial
  fresh _ _ := trivial
  subroutine := subroutine
  whileBody := whileBody
  forBody := forBody
  value_addZeros _ hv := hv
  value_set _ _ _ hv := hv
  lookup := lookup
  tick hs := hs
  bind hs _ hv := bind hs hv
  bindZeros hs _ _ := bind hs trivial
  store _ hs _ _ := hs
  println hs _ := hs

def ofDeferred (place : Place → Prop) (allowed : Origin → Place → Prop)
    (operand : ∀ {p op operands x}, place p → lib.node? p = some (.apply op operands) →
      x ∈ operands → place ⟨p.graph, x⟩)
    (callee : ∀ {p}, allowed .subroutine p → place p)
    (subroutine : ∀ {p target body}, place p →
      lib.node? p = some (.apply .define [target, body]) → allowed .subroutine ⟨p.graph, body⟩)
    (whileBody : ∀ {p condition body}, place p →
      lib.node? p = some (.apply .whileLoop [condition, body]) → allowed .loopBody ⟨p.graph, body⟩)
    (forBody : ∀ {p index first stop body}, place p →
      lib.node? p = some (.apply .forLoop [index, first, stop, body]) →
      allowed .loopBody ⟨p.graph, body⟩) : Invariant lib :=
  ofBindings place allowed (Scope.All (Value.Within allowed)) (fun hs _ _ hv => hs _ _ hv)
    (fun hs hv => hs.bind _ hv) operand callee subroutine whileBody forBody

def ofPlaces (place : Place → Prop)
    (operand : ∀ {p op operands x}, place p → lib.node? p = some (.apply op operands) →
      x ∈ operands → place ⟨p.graph, x⟩) : Invariant lib :=
  ofDeferred place (fun _ => place) operand id (fun hp hn => operand hp hn (by simp))
    (fun hp hn => operand hp hn (by simp)) fun hp hn => operand hp hn (by simp)

/-- As above, if the variables at these places are all in sight. What is bound to other names may
lead anywhere. -/
def ofSeen (place : Place → Prop) (seen : String → Prop)
    (operand : ∀ {p op operands x}, place p → lib.node? p = some (.apply op operands) →
      x ∈ operands → place ⟨p.graph, x⟩)
    (var : ∀ {p name}, place p → lib.node? p = some (.var name) → seen name) : Invariant lib :=
  ofBindings place (fun _ => place) (Scope.AllOf seen (Value.Within fun _ => place))
    (fun hs hp hn hv => hs _ (var hp hn) _ hv) (fun hs hv => hs.bind _ hv) operand id
    (fun hp hn => operand hp hn (by simp)) (fun hp hn => operand hp hn (by simp))
    fun hp hn => operand hp hn (by simp)

def withScope (I : Invariant lib) (kept : Scope → Prop)
    (bind : ∀ {s name v}, kept s → lib.Binds I.place name → kept (s.bind name v)) :
    Invariant lib where
  place := I.place
  value := I.value
  state s := I.state s ∧ kept s.scope
  operand := I.operand
  callee := I.callee
  scalar := I.scalar
  nop := I.nop
  fresh length hs := I.fresh length hs.1
  subroutine := I.subroutine
  whileBody := I.whileBody
  forBody := I.forBody
  value_addZeros := I.value_addZeros
  value_set := I.value_set
  lookup hs := I.lookup hs.1
  tick hs := ⟨I.tick hs.1, hs.2⟩
  bind hs hb hv := ⟨I.bind hs.1 hb hv, bind hs.2 hb⟩
  bindZeros hs hb hn := ⟨I.bindZeros hs.1 hb hn, bind hs.2 hb⟩
  store x hs hv hi := ⟨I.store x hs.1 hv hi, hs.2⟩
  println hs hv := ⟨I.println hs.1 hv, hs.2⟩

end Invariant

end ReversePolish
