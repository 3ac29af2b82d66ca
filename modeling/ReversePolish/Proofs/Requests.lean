import ReversePolish.Proofs.Attribution
import ReversePolish.Proofs.Layout
import ReversePolish.Proofs.Printing

/-!
What operations ask for. The evaluation of a node comes down to the evaluations that its operation
asks for one after the other, each by itself, and to what the operation makes of their values.
-/

namespace ReversePolish

structure Request where
  place : Place
  state : State

def Gives {α : Type} (take : Value → Except Cause α) (lib : Library) (p : Place) (s : State) (a : α)
    (s' : State) : Prop :=
  ∃ v, Returns lib p s ⟨.ok v, s'⟩ ∧ take v = .ok a

inductive Lacks {α : Type} (take : Value → Except Cause α) (lib : Library) (op : Operation) (p : Place)
    (s : State) : Outcome → Prop
  | failed {f s'} : Returns lib p s ⟨.error f, s'⟩ → Lacks take lib op p s ⟨.error (f.within op), s'⟩
  | refused {v cause s'} : Returns lib p s ⟨.ok v, s'⟩ → take v = .error cause →
      Lacks take lib op p s ⟨.error (.of cause (some op)), s'⟩

theorem Gives.unique {α : Type} {take : Value → Except Cause α} {lib : Library} {p : Place}
    {s s₁ s₂ : State} {a b : α} (h : Gives take lib p s a s₁) (h' : Gives take lib p s b s₂) :
    a = b ∧ s₁ = s₂ := by
  obtain ⟨v, hv, ha⟩ := h
  obtain ⟨w, hw, hb⟩ := h'
  cases hv.unique hw
  rw [ha] at hb
  exact ⟨Except.ok.inj hb, rfl⟩

namespace Machine

def request? (m : Machine) : Option Request :=
  match m.control, m.frames with
  | .enter p, [_] => some ⟨p, m.state⟩
  | _, _ => none

def requests (lib : Library) (fuel : Nat) (m : Machine) : List Request :=
  (trace lib fuel m).filterMap request?

/-- The machine returns, and this is all that its outermost operation asks for until then. -/
structure Asks (lib : Library) (m : Machine) (rs : List Request) (o : Outcome) : Prop where
  returns : Returns lib m o
  requests : ∃ fuel, run lib fuel m = some o ∧ requests lib fuel m = rs

/-- How far a machine gets within so many steps by itself, and how the operation that waits for it
goes on after that: the outcome if there is one, and what the operation has asked for. -/
inductive Progress (lib : Library) (f : Frame) (m : Machine) (fuel : Nat) :
    Option Outcome → List Request → Prop
  | under_way : Progress lib f m fuel none []
  | failed {e s} : Ends lib m ⟨.error e, s⟩ →
      Progress lib f m fuel (some ⟨.error (e.within f.operation), s⟩) []
  | delivered {v s n} : Ends lib m ⟨.ok v, s⟩ → n ≤ fuel →
      Progress lib f m fuel (run lib n ⟨.deliver v, [f], s⟩) (requests lib n ⟨.deliver v, [f], s⟩)

variable {lib : Library} {m m' : Machine} {o o' : Outcome} {fuel fuel' : Nat} {f : Frame}
  {base : List Frame} {rs : List Request} {q : Place} {s s' : State} {v : Value} {e : Fault}

theorem requests_succ_of_next (h : m.step lib = .next m') :
    requests lib (fuel + 1) m = m.request?.toList ++ requests lib fuel m' := by
  simp only [requests, trace, h, List.filterMap_cons]
  cases m.request? <;> rfl

theorem requests_succ_of_done (h : m.step lib = .done o) :
    requests lib (fuel + 1) m = m.request?.toList := by
  simp only [requests, trace, h, List.filterMap_cons, List.filterMap_nil]
  cases m.request? <;> rfl

theorem requests_eq_of_run (h : run lib fuel m = some o) (h' : run lib fuel' m = some o') :
    requests lib fuel m = requests lib fuel' m := by
  induction fuel generalizing m fuel' with
  | zero => cases h
  | succ fuel ih =>
    cases fuel' with
    | zero => cases h'
    | succ fuel' =>
      cases hs : m.step lib with
      | done o => rw [requests_succ_of_done hs, requests_succ_of_done hs]
      | next m' =>
        rw [run_succ_of_next hs] at h h'
        rw [requests_succ_of_next hs, requests_succ_of_next hs, ih h h']

theorem leaving_singleton (f : Frame) (e : Fault) : leaving [f] e = e.within f.operation := by
  rw [← leaving_nil (e.within f.operation)]
  exact (leaving_within e f.pending).symm

section Progress

theorem Progress.of_next {r : Option Outcome} (hs : m.step lib = .next m')
    (h : Progress lib f m' fuel r rs) : Progress lib f m fuel r rs := by
  cases h with
  | under_way => exact .under_way
  | failed he => exact .failed (.of_next hs he)
  | delivered he hn => exact .delivered (.of_next hs he) hn

theorem Progress.of_le {r : Option Outcome} (h : Progress lib f m fuel r rs) (hle : fuel ≤ fuel') :
    Progress lib f m fuel' r rs := by
  cases h with
  | under_way => exact .under_way
  | failed he => exact .failed he
  | delivered he hn => exact .delivered he (Nat.le_trans hn hle)

theorem progress_succ (hactive : m.frames ≠ [] ∨ ∃ p, m.control = .enter p)
    (ih : ∀ m', m.step lib = .next m' →
      Progress lib f m' fuel (run lib fuel (m'.onto [f])) (requests lib fuel (m'.onto [f]))) :
    ∃ rs, requests lib (fuel + 1) (m.onto [f]) = (m.onto [f]).request?.toList ++ rs ∧
      Progress lib f m fuel (run lib (fuel + 1) (m.onto [f])) rs := by
  have hstep := step_onto lib [f] hactive
  match hs : m.step lib with
  | .next m' =>
    rw [hs] at hstep
    refine ⟨_, requests_succ_of_next hstep, ?_⟩
    rw [run_succ_of_next hstep]
    exact .of_next hs (ih m' hs)
  | .done ⟨.ok v, s⟩ =>
    rw [hs] at hstep
    refine ⟨_, requests_succ_of_next hstep, ?_⟩
    rw [run_succ_of_next hstep]
    exact .delivered (.of_done hs) (Nat.le_refl fuel)
  | .done ⟨.error e, s⟩ =>
    rw [hs] at hstep
    refine ⟨[], by rw [requests_succ_of_done hstep, List.append_nil], ?_⟩
    rw [run_succ_of_done hstep, leaving_singleton]
    exact .failed (.of_done hs)

theorem progress (hm : ∀ p, m.control = .enter p → m.frames ≠ []) :
    Progress lib f m fuel (run lib fuel (m.onto [f])) (requests lib fuel (m.onto [f])) := by
  induction fuel generalizing m with
  | zero => exact .under_way
  | succ fuel ih =>
    obtain ⟨v, s, rfl⟩ | hactive := idle_or_active m
    · exact .delivered (.of_done rfl) (Nat.le_refl _)
    · obtain ⟨rs, hrs, h⟩ := progress_succ (f := f) hactive fun m' hs =>
        ih fun _ => frames_ne_nil_of_enter hs
      have hnone : (m.onto [f]).request? = none := by
        obtain ⟨control, frames, s⟩ := m
        cases control with
        | deliver v => rfl
        | enter p =>
          obtain ⟨g, gs, rfl⟩ := List.exists_cons_of_ne_nil (hm p rfl)
          cases gs <;> rfl
      rw [hrs, hnone]
      exact h.of_le (Nat.le_succ fuel)

theorem progress_enter (lib : Library) (fuel : Nat) (q : Place) (f : Frame) (s : State) :
    ∃ rs, requests lib (fuel + 1) ⟨.enter q, [f], s⟩ = ⟨q, s⟩ :: rs ∧
      Progress lib f ⟨.enter q, [], s⟩ fuel (run lib (fuel + 1) ⟨.enter q, [f], s⟩) rs :=
  progress_succ (m := ⟨.enter q, [], s⟩) (.inr ⟨q, rfl⟩) fun _ hs =>
    progress fun _ => frames_ne_nil_of_enter hs

end Progress

section Returns

theorem hangs_onto (hactive : m.frames ≠ [] ∨ ∃ p, m.control = .enter p) :
    (m.onto base).Hangs lib ↔ m.Hangs lib := by
  obtain ⟨control, frames, s⟩ := m
  cases control with
  | enter p => exact hangs_congr rfl rfl
  | deliver v =>
    cases frames with
    | nil =>
      obtain h | ⟨p, hp⟩ := hactive
      · exact absurd rfl h
      · cases hp
    | cons f frames =>
      obtain ⟨graph, op, pending⟩ := f
      exact hangs_congr (by cases pending <;> rfl) rfl

theorem not_hangs_idle : ¬ Hangs lib ⟨.deliver v, [], s⟩ := by
  rintro ⟨q, hq, _⟩
  cases hq with
  | printed h => cases h
  | refused h => cases h

theorem Reaches.onto (h : Reaches lib m m') (base : List Frame) :
    Reaches lib (m.onto base) (m'.onto base) := by
  induction h with
  | refl => exact .refl
  | @tail n n' _ hs ih =>
    obtain ⟨v, s, rfl⟩ | hactive := idle_or_active n
    · cases hs
    · exact ih.tail (by rw [step_onto lib base hactive, hs]; rfl)

theorem Returns.of_onto (base : List Frame) (h : Returns lib (m.onto base) o) :
    ∃ o', Returns lib m o' := by
  obtain ⟨o', ho'⟩ := h.ends.of_onto
  refine ⟨o', ho', fun n hn => ?_⟩
  obtain ⟨v, s, rfl⟩ | hactive := idle_or_active n
  · exact not_hangs_idle
  · exact mt (hangs_onto hactive).2 (h.goes_on _ (hn.onto base))

theorem Returns.onto (base : List Frame) (h : Returns lib m o')
    (hnext : ∀ v s, o' = ⟨.ok v, s⟩ → Returns lib ⟨.deliver v, base, s⟩ o)
    (hfail : ∀ e s, o' = ⟨.error e, s⟩ → o = ⟨.error (leaving base e), s⟩) :
    Returns lib (m.onto base) o := by
  obtain ⟨⟨fuel, hrun⟩, hgoes⟩ := h
  induction fuel generalizing m with
  | zero => cases hrun
  | succ fuel ih =>
    obtain ⟨v, s, rfl⟩ | hactive := idle_or_active m
    · exact hnext v s (Option.some.inj hrun).symm
    · have hstep := step_onto lib base hactive
      have hfree : ¬ (m.onto base).Hangs lib := mt (hangs_onto hactive).1 (hgoes m .refl)
      match hs : m.step lib with
      | .next m' =>
        rw [hs] at hstep
        rw [run_succ_of_next hs] at hrun
        exact .of_next hfree hstep (ih (fun n hn => hgoes n (.head hs hn)) hrun)
      | .done ⟨.ok v, s⟩ =>
        rw [hs] at hstep
        rw [run_succ_of_done hs] at hrun
        exact .of_next hfree hstep (hnext v s (Option.some.inj hrun).symm)
      | .done ⟨.error e, s⟩ =>
        rw [hs] at hstep
        rw [run_succ_of_done hs] at hrun
        rw [hfail e s (Option.some.inj hrun).symm]
        exact .of_done hfree hstep

end Returns

section Asks

theorem Asks.of_returns (h : Returns lib m o) : ∃ rs, Asks lib m rs o := by
  obtain ⟨fuel, hrun⟩ := h.ends
  exact ⟨_, h, fuel, hrun, rfl⟩

theorem Asks.unique {rs' : List Request} (h : Asks lib m rs o) (h' : Asks lib m rs' o') :
    rs = rs' ∧ o = o' := by
  obtain ⟨hreturns, fuel, hrun, rfl⟩ := h
  obtain ⟨hreturns', fuel', hrun', rfl⟩ := h'
  exact ⟨requests_eq_of_run hrun hrun', hreturns.unique hreturns'⟩

theorem Asks.of_done (hfree : ¬ m.Hangs lib) (hs : m.step lib = .done o)
    (hnone : m.request? = none) : Asks lib m [] o where
  returns := .of_done hfree hs
  requests := ⟨1, run_succ_of_done hs, by rw [requests_succ_of_done hs, hnone]; rfl⟩

theorem asks_iff_of_next (hfree : ¬ m.Hangs lib) (hs : m.step lib = .next m')
    (hnone : m.request? = none) : Asks lib m rs o ↔ Asks lib m' rs o := by
  constructor
  · rintro ⟨hreturns, fuel, hrun, rfl⟩
    cases fuel with
    | zero => cases hrun
    | succ fuel =>
      rw [run_succ_of_next hs] at hrun
      rw [requests_succ_of_next hs, hnone]
      exact ⟨hreturns.next hs, fuel, hrun, rfl⟩
  · rintro ⟨hreturns, fuel, hrun, rfl⟩
    refine ⟨.of_next hfree hs hreturns, fuel + 1, ?_, ?_⟩
    · rw [run_succ_of_next hs, hrun]
    · rw [requests_succ_of_next hs, hnone]
      rfl

theorem Asks.progress (h : Asks lib ⟨.enter q, [f], s⟩ rs o) :
    (∃ e s', Evaluates lib q s ⟨.error e, s'⟩ ∧ rs = [⟨q, s⟩] ∧
      o = ⟨.error (e.within f.operation), s'⟩) ∨
    ∃ v s' rs', Evaluates lib q s ⟨.ok v, s'⟩ ∧ Asks lib ⟨.deliver v, [f], s'⟩ rs' o ∧
      rs = ⟨q, s⟩ :: rs' := by
  obtain ⟨hreturns, fuel, hrun, rfl⟩ := h
  cases fuel with
  | zero => cases hrun
  | succ fuel =>
    obtain ⟨rs, hrs, hprogress⟩ := progress_enter lib fuel q f s
    rw [hrun] at hprogress
    rw [hrs]
    generalize hresult : some o = result at hprogress
    cases hprogress with
    | under_way => cases hresult
    | failed he => exact .inl ⟨_, _, he, rfl, Option.some.inj hresult⟩
    | delivered he _ =>
      exact .inr ⟨_, _, _, he, ⟨hreturns.reaches (he.onto [f]), _, hresult.symm, rfl⟩, rfl⟩

theorem asks_enter_iff : Asks lib ⟨.enter q, [f], s⟩ rs o ↔
    (∃ e s', ReversePolish.Returns lib q s ⟨.error e, s'⟩ ∧ rs = [⟨q, s⟩] ∧
      o = ⟨.error (e.within f.operation), s'⟩) ∨
    ∃ v s' rs', ReversePolish.Returns lib q s ⟨.ok v, s'⟩ ∧
      Asks lib ⟨.deliver v, [f], s'⟩ rs' o ∧ rs = ⟨q, s⟩ :: rs' := by
  constructor
  · intro h
    obtain ⟨o', ho'⟩ := Returns.of_onto (m := ⟨.enter q, [], s⟩) [f] h.returns
    obtain ⟨e, s', he, hrs, ho⟩ | ⟨v, s', rs', he, hasks, hrs⟩ := h.progress
    · obtain rfl := ho'.ends.unique he
      exact .inl ⟨e, s', ho', hrs, ho⟩
    · obtain rfl := ho'.ends.unique he
      exact .inr ⟨v, s', rs', ho', hasks, hrs⟩
  · rintro (⟨e, s', he, rfl, rfl⟩ | ⟨v, s', rs', hv, hasks, rfl⟩)
    · have hreturns : Returns lib ⟨.enter q, [f], s⟩ ⟨.error (e.within f.operation), s'⟩ := by
        rw [← leaving_singleton]
        refine Returns.onto (m := ⟨.enter q, [], s⟩) [f] he ?_ ?_
        · rintro _ _ ⟨⟩
        · rintro _ _ ⟨⟩
          rfl
      obtain ⟨rs, h⟩ := Asks.of_returns hreturns
      obtain ⟨_, _, _, rfl, _⟩ | ⟨v, s', _, hv, _, _⟩ := h.progress
      · exact h
      · cases he.ends.unique hv
    · have hreturns : Returns lib ⟨.enter q, [f], s⟩ o := by
        refine Returns.onto (m := ⟨.enter q, [], s⟩) [f] hv ?_ ?_
        · rintro _ _ ⟨⟩
          exact hasks.returns
        · rintro _ _ ⟨⟩
      obtain ⟨rs, h⟩ := Asks.of_returns hreturns
      obtain ⟨_, _, he, _, _⟩ | ⟨_, _, _, hv', hasks', rfl⟩ := h.progress
      · cases hv.ends.unique he
      · cases hv.ends.unique hv'
        rw [(hasks.unique hasks').1]
        exact h

end Asks

section Operations

variable {graph : Nat} {op : Operation} {p : Place} {operands : List Nat} {pending : Pending}

theorem asks_idle_iff : Asks lib ⟨.deliver v, [], s⟩ rs o ↔ rs = [] ∧ o = ⟨.ok v, s⟩ := by
  have hasks : Asks lib ⟨.deliver v, [], s⟩ [] ⟨.ok v, s⟩ := .of_done not_hangs_idle rfl rfl
  constructor
  · intro h
    exact h.unique hasks
  · rintro ⟨rfl, rfl⟩
    exact hasks

def Follow (lib : Library) (graph : Nat) (op : Operation) (s : State) (rs : List Request)
    (o : Outcome) : Response → Prop
  | .error cause => rs = [] ∧ o = ⟨.error (.of cause (some op)), s⟩
  | .ok (effect, .finish v) => rs = [] ∧ o = ⟨.ok v, s.apply effect⟩
  | .ok (effect, .await q pending) => Asks lib ⟨.enter q, [⟨graph, op, pending⟩], s.apply effect⟩ rs o

theorem asks_iff_of_settle {r : Response} (hfree : ¬ m.Hangs lib)
    (hs : m.step lib = settle graph op [] s r) (hnone : m.request? = none) :
    Asks lib m rs o ↔ Follow lib graph op s rs o r := by
  match r with
  | .ok (effect, .await place pending) => exact asks_iff_of_next hfree hs hnone
  | .ok (effect, .finish v) => rw [asks_iff_of_next hfree hs hnone, asks_idle_iff, Follow]
  | .error cause =>
    have hasks : Asks lib m [] ⟨.error (.of cause (some op)), s⟩ := .of_done hfree hs hnone
    constructor
    · intro h
      exact h.unique hasks
    · rintro ⟨rfl, rfl⟩
      exact hasks

theorem asks_operation_iff (hp : lib.node? p = some (.apply op operands))
    (hfree : ¬ Hangs lib ⟨.enter p, [], s⟩) (hs : s.meter.budget = none) :
    Asks lib ⟨.enter p, [], s⟩ rs o ↔
      Follow lib p.graph op s.tick rs o (Frame.enter lib p.graph op operands) := by
  have hstep := step_enter lib p [] hs
  simp only [visit, hp] at hstep
  exact asks_iff_of_settle hfree hstep rfl

theorem asks_deliver_iff (hfree : ¬ Hangs lib ⟨.deliver v, [f], s⟩) :
    Asks lib ⟨.deliver v, [f], s⟩ rs o ↔
      Follow lib f.graph f.operation s rs o (f.resume lib s.scope s.heap v) :=
  asks_iff_of_settle hfree rfl rfl

theorem hangs_deliver_iff (hline : pending ≠ .line) :
    Hangs lib ⟨.deliver v, [⟨graph, op, pending⟩], s⟩ ↔
      ∃ x, pending.inspected? v = some x ∧ lib.Endless ⟨graph, x⟩ := by
  constructor
  · rintro ⟨q, hq, hendless⟩
    cases hq with
    | printed h =>
      obtain ⟨_, _, _, _, hframes⟩ := printed?_eq_some h
      cases hframes
      exact absurd rfl hline
    | refused h =>
      obtain ⟨x, hx, rfl⟩ := Option.map_eq_some_iff.1 h
      exact ⟨x, hx, hendless⟩
  · rintro ⟨x, hx, hendless⟩
    obtain ⟨n, hn, hvar⟩ := hendless.exists_node
    exact ⟨⟨graph, x⟩, .refused (by simp only [inspected?, hx, Option.map_some]) hn hvar, hendless⟩

theorem not_hangs_deliver (hinspected : pending.inspected? v = none)
    (hline : pending ≠ .line) : ¬ Hangs lib ⟨.deliver v, [⟨graph, op, pending⟩], s⟩ := by
  rw [hangs_deliver_iff hline]
  rintro ⟨x, hx, _⟩
  rw [hinspected] at hx
  cases hx

theorem asks_await_iff (hinspected : ∀ v, pending.inspected? v = none)
    (hline : pending ≠ .line) : Asks lib ⟨.enter q, [⟨graph, op, pending⟩], s⟩ rs o ↔
    (∃ e s', ReversePolish.Returns lib q s ⟨.error e, s'⟩ ∧ rs = [⟨q, s⟩] ∧
      o = ⟨.error (e.within op), s'⟩) ∨
    ∃ v s' rs', ReversePolish.Returns lib q s ⟨.ok v, s'⟩ ∧
      Follow lib graph op s' rs' o (Frame.resume lib s'.scope s'.heap ⟨graph, op, pending⟩ v) ∧
      rs = ⟨q, s⟩ :: rs' := by
  simp only [asks_enter_iff, asks_deliver_iff (not_hangs_deliver (hinspected _) hline)]

theorem follow_take_iff {α : Type} {taken : Except Cause α} {k : α → Response} :
    Follow lib graph op s rs o (taken >>= k) ↔
      (∃ cause, taken = .error cause ∧ rs = [] ∧ o = ⟨.error (.of cause (some op)), s⟩) ∨
      ∃ a, taken = .ok a ∧ Follow lib graph op s rs o (k a) := by
  cases taken with
  | error cause => simp [bind, Except.bind, Follow]
  | ok a => simp [bind, Except.bind]

theorem asks_take_heap_iff {α : Type} {take : Value → Except Cause α} {k : Heap → α → Response}
    (hinspected : ∀ v, pending.inspected? v = none) (hline : pending ≠ .line)
    (hresume : ∀ scope h v, Frame.resume lib scope h ⟨graph, op, pending⟩ v = take v >>= k h) :
    Asks lib ⟨.enter q, [⟨graph, op, pending⟩], s⟩ rs o ↔
      Lacks take lib op q s o ∧ rs = [⟨q, s⟩] ∨
      ∃ a s' rs', Gives take lib q s a s' ∧ Follow lib graph op s' rs' o (k s'.heap a) ∧
        rs = ⟨q, s⟩ :: rs' := by
  simp only [asks_await_iff hinspected hline, hresume, follow_take_iff]
  constructor
  · rintro (⟨e, s', he, rfl, rfl⟩ | ⟨v, s', rs', hv, ⟨cause, hcause, rfl, rfl⟩ | ⟨a, ha, h⟩, rfl⟩)
    · exact .inl ⟨.failed he, rfl⟩
    · exact .inl ⟨.refused hv hcause, rfl⟩
    · exact .inr ⟨a, s', rs', ⟨v, hv, ha⟩, h, rfl⟩
  · rintro (⟨⟨he⟩ | ⟨hv, hcause⟩, rfl⟩ | ⟨a, s', rs', ⟨v, hv, ha⟩, h, rfl⟩)
    · exact .inl ⟨_, _, he, rfl, rfl⟩
    · exact .inr ⟨_, _, _, hv, .inl ⟨_, hcause, rfl, rfl⟩, rfl⟩
    · exact .inr ⟨v, s', rs', hv, .inr ⟨a, ha, h⟩, rfl⟩

theorem asks_take_iff {α : Type} {take : Value → Except Cause α} {k : α → Response}
    (hinspected : ∀ v, pending.inspected? v = none) (hline : pending ≠ .line)
    (hresume : ∀ scope h v, Frame.resume lib scope h ⟨graph, op, pending⟩ v = take v >>= k) :
    Asks lib ⟨.enter q, [⟨graph, op, pending⟩], s⟩ rs o ↔
      Lacks take lib op q s o ∧ rs = [⟨q, s⟩] ∨
      ∃ a s' rs', Gives take lib q s a s' ∧ Follow lib graph op s' rs' o (k a) ∧
        rs = ⟨q, s⟩ :: rs' :=
  asks_take_heap_iff (k := fun _ => k) hinspected hline hresume

theorem exists_target_of_hangs {n : Node} (hp : lib.node? p = some n)
    (h : Hangs lib ⟨.enter p, [], s⟩) : ∃ x, n.target? = some x ∧ lib.Endless ⟨p.graph, x⟩ := by
  obtain ⟨q, hq, hendless⟩ := h
  cases hq with
  | printed h => cases h
  | refused h =>
    obtain ⟨p', n', x, hp', hn', hx, rfl⟩ | ⟨_, _, _, _, hcontrol, _⟩ := inspected?_eq_some h
    · obtain rfl := Control.enter.inj (visited?_eq_some hp').1
      rw [hp] at hn'
      obtain rfl := Option.some.inj hn'
      exact ⟨x, hx, hendless⟩
    · cases hcontrol

theorem not_hangs_enter {n : Node} (hp : lib.node? p = some n)
    (htarget : ∀ x, n.target? = some x → ∃ name, lib.node? ⟨p.graph, x⟩ = some (.var name)) :
    ¬ Hangs lib ⟨.enter p, [], s⟩ := by
  intro h
  obtain ⟨x, hx, hendless⟩ := exists_target_of_hangs hp h
  obtain ⟨name, hname⟩ := htarget x hx
  exact hendless ⟨_, .var hname⟩

theorem not_hangs_enter_of_none {n : Node} (hp : lib.node? p = some n) (hn : n.target? = none) :
    ¬ Hangs lib ⟨.enter p, [], s⟩ := by
  intro h
  obtain ⟨x, hx, _⟩ := exists_target_of_hangs hp h
  rw [hn] at hx
  cases hx

theorem hangs_enter {n : Node} {x : Nat} (hp : lib.node? p = some n) (hs : s.meter.budget = none)
    (hx : n.target? = some x) (hendless : lib.Endless ⟨p.graph, x⟩) :
    Hangs lib ⟨.enter p, [], s⟩ := by
  obtain ⟨n', hn', hvar⟩ := hendless.exists_node
  have hover : s.tick.meter.overrun? = none := by
    simp [State.tick, Meter.tick, Meter.overrun?, hs]
  have hvisited : visited? ⟨.enter p, [], s⟩ = some p := by simp only [visited?, hover]
  refine ⟨_, .refused ?_ hn' hvar, hendless⟩
  simp only [inspected?, hvisited, Option.bind_some, Library.target?, hp, hx, Option.map_some]

section Partial

variable {r : Request} {k : Nat}

theorem requests_idle : requests lib fuel ⟨.deliver v, [], s⟩ = [] := by
  cases fuel with
  | zero => rfl
  | succ fuel => exact requests_succ_of_done rfl

theorem requests_of_settle {response : Response} (hs : m.step lib = settle graph op [] s response)
    (hnone : m.request? = none) (h : (requests lib fuel m)[k]? = some r) :
    ∃ effect q pending n, response = .ok (effect, .await q pending) ∧
      (requests lib n ⟨.enter q, [⟨graph, op, pending⟩], s.apply effect⟩)[k]? = some r := by
  cases fuel with
  | zero => cases h
  | succ fuel =>
    obtain cause | ⟨effect, ⟨q, pending⟩ | v⟩ := response
    · rw [requests_succ_of_done hs, hnone] at h
      cases h
    · rw [requests_succ_of_next hs, hnone] at h
      exact ⟨effect, q, pending, fuel, rfl, h⟩
    · rw [requests_succ_of_next hs, hnone, requests_idle] at h
      cases h

theorem requests_operation (hp : lib.node? p = some (.apply op operands))
    (h : (requests lib fuel ⟨.enter p, [], s⟩)[k]? = some r) :
    ∃ effect q pending n, Frame.enter lib p.graph op operands = .ok (effect, .await q pending) ∧
      (requests lib n ⟨.enter q, [⟨p.graph, op, pending⟩], s.tick.apply effect⟩)[k]? = some r := by
  cases hover : s.tick.meter.overrun? with
  | none =>
    have hstep : step lib ⟨.enter p, [], s⟩ =
        settle p.graph op [] s.tick (Frame.enter lib p.graph op operands) := by
      simp only [step, hover, visit, hp]
    exact requests_of_settle hstep rfl h
  | some budget =>
    have hstep : step lib ⟨.enter p, [], s⟩ = fail [] s.tick (.budgetExceeded budget) := by
      simp only [step, hover]
    cases fuel with
    | zero => cases h
    | succ fuel =>
      rw [requests_succ_of_done hstep] at h
      cases h

theorem requests_enter_zero (h : (requests lib fuel ⟨.enter q, [f], s⟩)[0]? = some r) :
    r = ⟨q, s⟩ := by
  cases fuel with
  | zero => cases h
  | succ fuel =>
    obtain ⟨rs, hrs, _⟩ := progress_enter lib fuel q f s
    rw [hrs] at h
    exact (Option.some.inj h).symm

theorem requests_enter_succ
    (h : (requests lib fuel ⟨.enter q, [⟨graph, op, pending⟩], s⟩)[k + 1]? = some r) :
    ∃ v s' effect q' pending' n, Evaluates lib q s ⟨.ok v, s'⟩ ∧
      Frame.resume lib s'.scope s'.heap ⟨graph, op, pending⟩ v = .ok (effect, .await q' pending') ∧
      (requests lib n ⟨.enter q', [⟨graph, op, pending'⟩], s'.apply effect⟩)[k]? = some r := by
  cases fuel with
  | zero => cases h
  | succ fuel =>
    obtain ⟨rs, hrs, hprogress⟩ := progress_enter lib fuel q ⟨graph, op, pending⟩ s
    rw [hrs, List.getElem?_cons_succ] at h
    generalize run lib (fuel + 1) _ = result at hprogress
    cases hprogress with
    | under_way => cases h
    | failed => cases h
    | @delivered v s' n hv _ =>
      obtain ⟨effect, q', pending', n, hresume, h⟩ := requests_of_settle rfl rfl h
      exact ⟨v, s', effect, q', pending', n, hv, hresume, h⟩

end Partial

end Operations

end Machine

def Asks (lib : Library) (p : Place) (s : State) (rs : List Request) (o : Outcome) : Prop :=
  Machine.Asks lib { control := .enter p, state := s } rs o

section Leaves

variable {lib : Library} {p : Place} {s : State} {v : Value}

theorem returns_leaf {n : Node} (hp : lib.node? p = some n) (hn : n.target? = none)
    (hvisit : Machine.visit lib p [] s.tick = .next ⟨.deliver v, [], s.tick⟩)
    (hs : s.meter.budget = none) : Returns lib p s ⟨.ok v, s.tick⟩ := by
  have hstep := (Machine.step_enter lib p [] hs).trans hvisit
  exact .of_next (Machine.not_hangs_enter_of_none hp hn) hstep (.of_done Machine.not_hangs_idle rfl)

theorem returns_num {x : Float} (hp : lib.node? p = some (.num x)) (hs : s.meter.budget = none) :
    Returns lib p s ⟨.ok (.number x), s.tick⟩ :=
  returns_leaf hp rfl (by simp only [Machine.visit, hp]) hs

theorem returns_var {name : String} (hp : lib.node? p = some (.var name))
    (hv : s.scope.find? name = some v) (hs : s.meter.budget = none) :
    Returns lib p s ⟨.ok v, s.tick⟩ := by
  have htick : s.tick.scope.find? name = some v := hv
  exact returns_leaf hp rfl (by simp only [Machine.visit, hp, htick]) hs

end Leaves

end ReversePolish
