import ReversePolish.Proofs.Legibility
import ReversePolish.Proofs.Provenance
import ReversePolish.Proofs.PureTrees
import ReversePolish.Proofs.Relocation

namespace ReversePolish

def Node.IsPure : Node → Prop
  | .apply op _ => op.isPure = true
  | _ => True

def Library.PureAt (lib : Library) (p : Place) : Prop :=
  ∀ q n, lib.Reach (· = p) q → lib.node? q = some n → n.IsPure

inductive Response.Collects (P : Place → Prop) (graph : Nat) : Response → Prop
  | error (cause) : Collects P graph (.error cause)
  | finish (v) : Collects P graph (Response.finish v)
  | await {x done rest} : P ⟨graph, x⟩ → (∀ y ∈ rest, P ⟨graph, y⟩) →
      Collects P graph (Response.await graph x (.operands done rest))

def Frame.Collects (P : Place → Prop) (f : Frame) : Prop :=
  ∃ done rest, f.pending = .operands done rest ∧ ∀ x ∈ rest, P ⟨f.graph, x⟩

theorem Frame.collects_enter {lib : Library} {P : Place → Prop} {graph : Nat} {op : Operation}
    {operands : List Nat} (hop : op.isPure = true) (hoperands : ∀ x ∈ operands, P ⟨graph, x⟩) :
    Response.Collects P graph (Frame.enter lib graph op operands) := by
  cases operands with
  | nil =>
    rw [Frame.enter_nil_of_isPure hop]
    exact .error _
  | cons x xs =>
    rw [Frame.enter_cons_of_isPure hop]
    exact .await (hoperands x List.mem_cons_self) fun y hy => hoperands y (List.mem_cons_of_mem x hy)

theorem Frame.Collects.resume {lib : Library} {P : Place → Prop} {scope : Scope} {h : Heap} {f : Frame}
    (hf : f.Collects P) (v : Value) : Response.Collects P f.graph (f.resume lib scope h v) := by
  obtain ⟨graph, op, _⟩ := f
  obtain ⟨done, rest, rfl, hrest⟩ := hf
  cases rest with
  | cons x xs =>
    exact .await (hrest x List.mem_cons_self) fun y hy => hrest y (List.mem_cons_of_mem x hy)
  | nil =>
    simp only [Frame.resume]
    cases op.applyPure h (v :: done).reverse with
    | error cause => exact .error cause
    | ok w => exact .finish w

namespace Machine

variable {lib : Library} {p : Place} {s : State} {m m' : Machine} {o : Outcome}

structure Observes (lib : Library) (p : Place) (s : State) (m : Machine) : Prop where
  control : ∀ q, m.control = .enter q → lib.Reach (· = p) q
  frames : ∀ f ∈ m.frames, f.Collects (lib.Reach (· = p))
  state : ∃ k, m.state = State.tick^[k] s

def Untouched (s : State) (o : Outcome) : Prop :=
  ∃ k, o.state = State.tick^[k] s

theorem observes_settle {graph : Nat} {op : Operation} {frames : List Frame} {t : State} {r : Response}
    (hframes : ∀ f ∈ frames, f.Collects (lib.Reach (· = p))) (ht : ∃ k, t = State.tick^[k] s)
    (hr : r.Collects (lib.Reach (· = p)) graph) :
    (settle graph op frames t r).All (Observes lib p s) (Untouched s) := by
  cases hr with
  | error cause => exact ht
  | finish v =>
    refine ⟨?_, hframes, ht⟩
    rintro q ⟨⟩
  | @await x done rest hx hrest =>
    refine ⟨?_, ?_, ht⟩
    · rintro q ⟨⟩
      exact hx
    · rintro f (_ | ⟨_, hf⟩)
      · exact ⟨done, rest, rfl, hrest⟩
      · exact hframes f hf

theorem observes_step (hp : lib.PureAt p) (hm : m.Observes lib p s) :
    (m.step lib).All (Observes lib p s) (Untouched s) := by
  obtain ⟨control, frames, t⟩ := m
  obtain ⟨hcontrol, hframes, k, hk⟩ := hm
  cases control with
  | deliver v =>
    cases frames with
    | nil => exact ⟨k, hk⟩
    | cons f fs =>
      exact observes_settle (fun g hg => hframes g (List.mem_cons_of_mem f hg)) ⟨k, hk⟩
        ((hframes f List.mem_cons_self).resume v)
  | enter q =>
    have htick : ∃ k, t.tick = State.tick^[k] s :=
      ⟨k + 1, by rw [Function.iterate_succ_apply']; exact congrArg State.tick hk⟩
    have hdeliver : ∀ v, Observes lib p s ⟨.deliver v, frames, t.tick⟩ := fun v =>
      ⟨by rintro _ ⟨⟩, hframes, htick⟩
    simp only [step]
    cases t.tick.meter.overrun? with
    | some budget => exact htick
    | none =>
      refine visit_cases (fun _ => htick) (fun _ => htick) (fun _ v _ _ => hdeliver v)
        (fun x => hdeliver _) fun op operands hn => ?_
      have hq := hcontrol q rfl
      exact observes_settle hframes htick
        (Frame.collects_enter (hp q _ hq hn) fun x hx => .operand hq hn hx)

theorem Observes.reaches (hp : lib.PureAt p) (hm : m.Observes lib p s) (h : Reaches lib m m') :
    m'.Observes lib p s := by
  induction h with
  | refl => exact hm
  | tail _ hs ih =>
    have hstep := observes_step hp ih
    rw [hs] at hstep
    exact hstep

theorem Observes.not_hangs (hp : lib.PureAt p) (hm : m.Observes lib p s) : ¬ m.Hangs lib := by
  rintro ⟨q, hq, _⟩
  cases hq with
  | printed h =>
    obtain ⟨_, graph, op, fs, hframes⟩ := printed?_eq_some h
    obtain ⟨done, rest, hpending, _⟩ := hm.frames ⟨graph, op, .line⟩ (by simp [hframes])
    cases hpending
  | refused h hn hvar =>
    obtain ⟨p', n, x, hp', hn', hx, rfl⟩ | ⟨v, f, fs, x, _, hframes, hx, rfl⟩ := inspected?_eq_some h
    · obtain ⟨op, xs, rfl, hbinds, _⟩ := Node.target?_eq_some hx
      have hpure : op.isPure = true := hp p' _ (hm.control p' (visited?_eq_some hp').1) hn'
      cases op with
      | alloc | define | forLoop => cases hpure
      | _ => cases hbinds
    · obtain ⟨done, rest, hpending, _⟩ := hm.frames f (by simp [hframes])
      rw [hpending] at hx
      cases hx

end Machine

theorem Library.PureAt.returns {lib : Library} {p : Place} {s : State} {o : Outcome}
    (hp : lib.PureAt p) (h : Evaluates lib p s o) :
    Returns lib p s o ∧ ∃ k, o.state = State.tick^[k] s := by
  have hstart : Machine.Observes lib p s ⟨.enter p, [], s⟩ := by
    refine ⟨?_, ?_, 0, rfl⟩
    · rintro q ⟨⟩
      exact .start rfl
    · rintro f ⟨⟩
  refine ⟨⟨h.ends, fun n hn => (hstart.reaches hp hn).not_hangs hp⟩, ?_⟩
  exact Machine.run_invariant (fun _ => Machine.observes_step hp) h.ends hstart

inductive Node.PureOver (id : Nat) : Node → Prop
  | var (name) : PureOver id (.var name)
  | num (value) : PureOver id (.num value)
  | apply {op operands} : op.isPure = true → operands.length = op.arity → (∀ x ∈ operands, x < id) →
      PureOver id (.apply op operands)

/-- Whatever can be reached from here is there, and is a node of a pure tree. -/
def Library.PureTreeAt (lib : Library) (p : Place) : Prop :=
  ∀ q, lib.Reach (· = p) q → ∃ n, lib.node? q = some n ∧ n.PureOver q.node

namespace Library.PureTreeAt

variable {lib : Library} {p : Place}

theorem pureAt (hp : lib.PureTreeAt p) : lib.PureAt p := by
  intro q n hq hn
  obtain ⟨n', hn', hpure⟩ := hp q hq
  rw [hn] at hn'
  obtain rfl := Option.some.inj hn'
  cases hpure with
  | var | num => trivial
  | apply hop _ _ => exact hop

theorem pure_unfoldTo (hp : lib.PureTreeAt p) (depth : Nat) :
    ∀ id, lib.Reach (· = p) ⟨p.graph, id⟩ → id < depth →
      ((lib.graph p.graph).unfoldTo depth id).Pure := by
  induction depth with
  | zero =>
    intro id _ hid
    cases hid
  | succ depth ih =>
    intro id hreach hid
    obtain ⟨n, hn, hpure⟩ := hp _ hreach
    have hnode : (lib.graph p.graph)[id]? = some n := hn
    rw [Graph.unfoldTo, hnode]
    cases hpure with
    | var name => exact .var name
    | num value => exact .num value
    | @apply op operands hop hlen hlt =>
      refine .apply hop (by rw [List.length_map, hlen]) fun t ht => ?_
      obtain ⟨x, hx, rfl⟩ := List.mem_map.1 ht
      have hx' : x < id := hlt x hx
      exact ih x (.operand (p := ⟨p.graph, id⟩) hreach hn hx) (by omega)

theorem pure_unfold (hp : lib.PureTreeAt p) : ((lib.graph p.graph).unfold p.node).Pure := by
  obtain ⟨n, hn, _⟩ := hp p (.start rfl)
  obtain ⟨hlt, _⟩ := Array.getElem?_eq_some_iff.1 hn
  exact hp.pure_unfoldTo _ _ (.start rfl) (by omega)

theorem returns (hp : lib.PureTreeAt p) (s : State) :
    let r := ((lib.graph p.graph).unfold p.node).metered s.scope s.heap s.meter
    Returns lib p s ⟨r.1, { s with meter := r.2 }⟩ :=
  (hp.pureAt.returns ((Machine.follows_unfoldTo _ _ hp.pure_unfold).evaluates_metered s)).1

end Library.PureTreeAt

/-- The evaluation of a pure tree returns, with the value or the first failure of the tree, whatever
else is bound. All that it changes is the count, by the number of the nodes of the tree unless it
fails. -/
theorem pure_trees_are_pure (lib : Library) (p : Place) (s : State) (hp : lib.PureTreeAt p) :
    let t := (lib.graph p.graph).unfold p.node
    ∃ result n, Returns lib p s ⟨result, State.tick^[n] s⟩ ∧
      ((State.tick^[n] s).scope = s.scope ∧ (State.tick^[n] s).heap = s.heap ∧
        (State.tick^[n] s).printer = s.printer) ∧
      (s.meter.budget = none → result = t.evaluate s.scope s.heap) ∧
      n ≤ t.size ∧ (∀ v, result = .ok v → n = t.size) ∧
      (s.meter.steps + n ≤ Meter.ceiling → (State.tick^[n] s).meter.steps = s.meter.steps + n) ∧
      ∀ scope : Scope, (∀ name, t.Occurs name → scope.find? name = s.scope.find? name) →
        Returns lib p { s with scope } ⟨result, State.tick^[n] { s with scope }⟩ := by
  intro t
  obtain ⟨n, hn, hmeter, hall⟩ := t.counts_metered s.scope s.heap s.meter
  have hreturns : ∀ scope : Scope, (∀ name, t.Occurs name → scope.find? name = s.scope.find? name) →
      Returns lib p { s with scope }
        ⟨(t.metered s.scope s.heap s.meter).1, State.tick^[n] { s with scope }⟩ := by
    intro scope hscope
    rw [State.ticks_eq, ← hmeter, ← t.metered_congr hscope]
    exact hp.returns { s with scope }
  refine ⟨_, n, hreturns s.scope fun _ _ => rfl, ⟨s.scope_ticks n, s.heap_ticks n, s.printer_ticks n⟩,
    t.metered_fst s.meter, hn, hall, fun hsteps => ?_, hreturns⟩
  rw [State.ticks_eq, Meter.ticks_eq (by omega)]
  change min (n + s.meter.steps) Meter.ceiling = _
  omega

theorem pure_trees_are_pure_shared :
    ∃ (lib : Library) (s : State), (lib.graph 0).size = 3 ∧
      s.scope.find? "x" = some (.number 3.0) ∧
      Returns lib ⟨0, 2⟩ s ⟨.ok (.number 36.0), State.tick^[7] s⟩ := by
  let lib : Library := ⟨#[#[.var "x", .apply .add [0, 0], .apply .mul [1, 1]]]⟩
  let s : State := { scope := Scope.bind {} "x" (.number 3.0), heap := {} }
  have hreach : ∀ q, lib.Reach (· = ⟨0, 2⟩) q → q = ⟨0, 0⟩ ∨ q = ⟨0, 1⟩ ∨ q = ⟨0, 2⟩ := by
    intro q hq
    induction hq with
    | start h => exact .inr (.inr h)
    | operand _ hn hx ih =>
      obtain rfl | rfl | rfl := ih <;> cases hn <;> simp at hx <;> simp [hx]
  have hp : lib.PureTreeAt ⟨0, 2⟩ := by
    intro q hq
    obtain rfl | rfl | rfl := hreach q hq
    · exact ⟨_, rfl, .var "x"⟩
    · exact ⟨_, rfl, .apply rfl rfl (by decide)⟩
    · exact ⟨_, rfl, .apply rfl rfl (by decide)⟩
  obtain ⟨result, n, hreturns, _, hvalue, _, hn, _⟩ := pure_trees_are_pure lib ⟨0, 2⟩ s hp
  have heval : ((lib.graph 0).unfold 2).evaluate s.scope s.heap = .ok (.number 36.0) := by decide +kernel
  have hresult := hvalue rfl
  rw [heval] at hresult
  obtain rfl := hresult
  obtain rfl : n = 7 := hn _ rfl
  exact ⟨lib, s, rfl, by simp [s], hreturns⟩

end ReversePolish
