import ReversePolish.Proofs.Purity
import ReversePolish.Proofs.Requests
import ReversePolish.Proofs.Reuse

namespace ReversePolish

def Value.toBoolean : Value → Except Cause Bool
  | .boolean b => .ok b
  | v => .error (.conditionNotBoolean v.kind)

/-- Tests the condition; makes a pass and begins again if it is true, and stops if it is false. The
number is that of the passes that have come to an end. -/
inductive Repeats (lib : Library) (condition body : Place) :
    Nat → Option Value → State → List Request → Outcome → Prop
  | untested {last s o} : Lacks Value.toBoolean lib .whileLoop condition s o →
      Repeats lib condition body 0 last s [⟨condition, s⟩] o
  | stopped {last s s'} : Gives Value.toBoolean lib condition s false s' →
      Repeats lib condition body 0 last s [⟨condition, s⟩]
        ⟨.ok (last.getD (.deferred .loopBody body)), s'⟩
  | failed {last s s₁ f s'} : Gives Value.toBoolean lib condition s true s₁ →
      Returns lib body s₁ ⟨.error f, s'⟩ →
      Repeats lib condition body 0 last s [⟨condition, s⟩, ⟨body, s₁⟩]
        ⟨.error (f.within .whileLoop), s'⟩
  | passed {n last s s₁ v s₂ rs o} : Gives Value.toBoolean lib condition s true s₁ →
      Returns lib body s₁ ⟨.ok v, s₂⟩ → Repeats lib condition body n (some v) s₂ rs o →
      Repeats lib condition body (n + 1) last s (⟨condition, s⟩ :: ⟨body, s₁⟩ :: rs) o

namespace Repeats

variable {lib : Library} {condition body : Place} {n : Nat} {last : Option Value} {s s' : State}
  {rs : List Request} {v : Value} {o : Outcome}

theorem map_place (h : Repeats lib condition body n last s rs ⟨.ok v, s'⟩) :
    rs.map (·.place) = (List.replicate n [condition, body]).flatten ++ [condition] := by
  generalize ho : Outcome.mk (.ok v) s' = o at h
  induction h with
  | untested h =>
    subst ho
    cases h
  | stopped => rfl
  | failed => cases ho
  | passed _ _ _ ih => simp [List.replicate_succ, ih ho]

end Repeats

namespace Machine

variable {lib : Library} {graph condition body n : Nat} {last : Option Value} {s : State}
  {rs : List Request} {o : Outcome}

theorem asks_test_iff :
    Asks lib ⟨.enter ⟨graph, condition⟩, [⟨graph, .whileLoop, .test condition body last⟩], s⟩ rs o ↔
      Lacks Value.toBoolean lib .whileLoop ⟨graph, condition⟩ s o ∧ rs = [⟨⟨graph, condition⟩, s⟩] ∨
      ∃ b s' rs', Gives Value.toBoolean lib ⟨graph, condition⟩ s b s' ∧
        Follow lib graph .whileLoop s' rs' o
          (if b then Response.await graph body (.pass condition body)
            else Response.finish (last.getD (.deferred .loopBody ⟨graph, body⟩))) ∧
        rs = ⟨⟨graph, condition⟩, s⟩ :: rs' := by
  refine asks_take_iff (fun _ => rfl) (by simp) fun scope h v => ?_
  cases v with
  | boolean b => cases b <;> rfl
  | _ => rfl

theorem asks_pass_iff :
    Asks lib ⟨.enter ⟨graph, body⟩, [⟨graph, .whileLoop, .pass condition body⟩], s⟩ rs o ↔
      (∃ f s', ReversePolish.Returns lib ⟨graph, body⟩ s ⟨.error f, s'⟩ ∧
        rs = [⟨⟨graph, body⟩, s⟩] ∧ o = ⟨.error (f.within .whileLoop), s'⟩) ∨
      ∃ v s' rs', ReversePolish.Returns lib ⟨graph, body⟩ s ⟨.ok v, s'⟩ ∧
        Asks lib ⟨.enter ⟨graph, condition⟩,
          [⟨graph, .whileLoop, .test condition body (some v)⟩], s'⟩ rs' o ∧
        rs = ⟨⟨graph, body⟩, s⟩ :: rs' :=
  asks_await_iff (fun _ => rfl) (by simp)

theorem asks_of_repeats (h : Repeats lib ⟨graph, condition⟩ ⟨graph, body⟩ n last s rs o) :
    Asks lib ⟨.enter ⟨graph, condition⟩, [⟨graph, .whileLoop, .test condition body last⟩], s⟩
      rs o := by
  induction h with
  | untested h => exact asks_test_iff.2 (.inl ⟨h, rfl⟩)
  | stopped h => exact asks_test_iff.2 (.inr ⟨false, _, [], h, ⟨rfl, rfl⟩, rfl⟩)
  | failed h hf =>
    exact asks_test_iff.2 (.inr ⟨true, _, _, h, asks_pass_iff.2 (.inl ⟨_, _, hf, rfl, rfl⟩), rfl⟩)
  | passed h hv _ ih =>
    exact asks_test_iff.2 (.inr ⟨true, _, _, h, asks_pass_iff.2 (.inr ⟨_, _, _, hv, ih, rfl⟩), rfl⟩)

theorem repeats_of_asks
    (h : Asks lib ⟨.enter ⟨graph, condition⟩, [⟨graph, .whileLoop, .test condition body last⟩], s⟩
      rs o) :
    ∃ n, Repeats lib ⟨graph, condition⟩ ⟨graph, body⟩ n last s rs o := by
  induction hlen : rs.length using Nat.strongRecOn generalizing rs last s with
  | ind len ih =>
    obtain ⟨hlacks, rfl⟩ | ⟨b, s₁, rs₁, hb, h, rfl⟩ := asks_test_iff.1 h
    · exact ⟨0, .untested hlacks⟩
    · cases b with
      | false =>
        obtain ⟨rfl, rfl⟩ := h
        exact ⟨0, .stopped hb⟩
      | true =>
        obtain ⟨f, s', hf, rfl, rfl⟩ | ⟨v, s₂, rs₂, hv, htest, rfl⟩ := asks_pass_iff.1 h
        · exact ⟨0, .failed hb hf⟩
        · have hlt : rs₂.length < len := by
            rw [← hlen, List.length_cons, List.length_cons]
            omega
          obtain ⟨n, hn⟩ := ih _ hlt htest rfl
          exact ⟨n + 1, .passed hb hv hn⟩

theorem asks_check_iff :
    Asks lib ⟨.enter ⟨graph, condition⟩, [⟨graph, .whileLoop, .check condition body⟩], s⟩ rs o ↔
      Lacks Value.toBoolean lib .whileLoop ⟨graph, condition⟩ s o ∧ rs = [⟨⟨graph, condition⟩, s⟩] ∨
      ∃ b s₁ n rs', Gives Value.toBoolean lib ⟨graph, condition⟩ s b s₁ ∧
        Repeats lib ⟨graph, condition⟩ ⟨graph, body⟩ n none s₁ rs' o ∧
        rs = ⟨⟨graph, condition⟩, s⟩ :: rs' := by
  have hresume : ∀ scope h v, Frame.resume lib scope h ⟨graph, .whileLoop, .check condition body⟩ v =
      v.toBoolean >>= fun _ => Response.await graph condition (.test condition body none) := by
    intro scope h v
    cases v <;> rfl
  rw [asks_take_iff (fun _ => rfl) (by simp) hresume]
  constructor
  · rintro (h | ⟨b, s₁, rs', hb, h, rfl⟩)
    · exact .inl h
    · obtain ⟨n, hn⟩ := repeats_of_asks h
      exact .inr ⟨b, s₁, n, rs', hb, hn, rfl⟩
  · rintro (h | ⟨b, s₁, n, rs', hb, hn, rfl⟩)
    · exact .inl h
    · exact .inr ⟨b, s₁, rs', hb, asks_of_repeats hn, rfl⟩

end Machine

theorem asks_whileLoop_iff {lib : Library} {p : Place} {condition body : Nat} {s : State}
    {rs : List Request} {o : Outcome}
    (hp : lib.node? p = some (.apply .whileLoop [condition, body])) (hs : s.meter.budget = none) :
    Asks lib p s rs o ↔
      Lacks Value.toBoolean lib .whileLoop ⟨p.graph, condition⟩ s.tick o ∧
        rs = [⟨⟨p.graph, condition⟩, s.tick⟩] ∨
      ∃ b s₁ n rs', Gives Value.toBoolean lib ⟨p.graph, condition⟩ s.tick b s₁ ∧
        Repeats lib ⟨p.graph, condition⟩ ⟨p.graph, body⟩ n none s₁ rs' o ∧
        rs = ⟨⟨p.graph, condition⟩, s.tick⟩ :: rs' := by
  have hfree : ¬ Machine.Hangs lib ⟨.enter p, [], s⟩ := Machine.not_hangs_enter_of_none hp rfl
  exact (Machine.asks_operation_iff hp hfree hs).trans Machine.asks_check_iff

section Ticks

variable {α : Type} {take : Value → Except Cause α} {lib : Library} {op : Operation} {p : Place}
  {s t : State} {a : α} {o : Outcome}

theorem gives_ticks_iff (hs : s.Unbounded) (k : Nat) :
    Gives take lib p (State.tick^[k] s) a t ↔
      ∃ t', Gives take lib p s a t' ∧ t = State.tick^[k] t' := by
  constructor
  · rintro ⟨v, hv, ha⟩
    obtain ⟨⟨result, t'⟩, ho, he⟩ := (returns_ticks_iff hs.budget k).1 hv
    cases he
    exact ⟨t', ⟨v, ho, ha⟩, rfl⟩
  · rintro ⟨t', ⟨v, hv, ha⟩, rfl⟩
    exact ⟨v, (returns_ticks_iff hs.budget k).2 ⟨_, hv, rfl⟩, ha⟩

theorem lacks_ticks_iff (hs : s.Unbounded) (k : Nat) :
    Lacks take lib op p (State.tick^[k] s) o ↔
      ∃ o', Lacks take lib op p s o' ∧ o = ⟨o'.result, State.tick^[k] o'.state⟩ := by
  constructor
  · rintro (hf | ⟨hv, hcause⟩)
    · obtain ⟨⟨result, t⟩, ho, he⟩ := (returns_ticks_iff hs.budget k).1 hf
      cases he
      exact ⟨_, .failed ho, rfl⟩
    · obtain ⟨⟨result, t⟩, ho, he⟩ := (returns_ticks_iff hs.budget k).1 hv
      cases he
      exact ⟨_, .refused ho hcause, rfl⟩
  · rintro ⟨_, hf | ⟨hv, hcause⟩, rfl⟩
    · exact .failed ((returns_ticks_iff hs.budget k).2 ⟨_, hf, rfl⟩)
    · exact .refused ((returns_ticks_iff hs.budget k).2 ⟨_, hv, rfl⟩) hcause

theorem Gives.lasting {P : State → Prop} (hP : State.Lasting P) (h : Gives take lib p s a t)
    (hs : P s) : P t := by
  obtain ⟨v, hv, _⟩ := h
  exact hP.of_evaluates hv.evaluates hs

theorem Lacks.lasting {P : State → Prop} (hP : State.Lasting P) (h : Lacks take lib op p s o)
    (hs : P s) : P o.state := by
  cases h with
  | failed hf =>
    have hend := hP.of_evaluates hf.evaluates hs
    exact hend
  | refused hv _ =>
    have hend := hP.of_evaluates hv.evaluates hs
    exact hend

variable {condition body : Place} {n : Nat} {last : Option Value} {rs : List Request}

theorem Repeats.lasting {P : State → Prop} (hP : State.Lasting P)
    (h : Repeats lib condition body n last s rs o) (hs : P s) : P o.state := by
  induction h with
  | untested h => exact h.lasting hP hs
  | stopped h => exact h.lasting hP hs
  | failed h hf =>
    have hend := hP.of_evaluates hf.evaluates (h.lasting hP hs)
    exact hend
  | passed h hv _ ih => exact ih (hP.of_evaluates hv.evaluates (h.lasting hP hs))

theorem Repeats.ticks (h : Repeats lib condition body n last s rs o) (hs : s.Unbounded) (k : Nat) :
    ∃ rs', Repeats lib condition body n last (State.tick^[k] s) rs'
      ⟨o.result, State.tick^[k] o.state⟩ := by
  induction h with
  | untested h => exact ⟨_, .untested ((lacks_ticks_iff hs k).2 ⟨_, h, rfl⟩)⟩
  | stopped h => exact ⟨_, .stopped ((gives_ticks_iff hs k).2 ⟨_, h, rfl⟩)⟩
  | failed h hf =>
    have hs₁ := h.lasting State.lasting_unbounded hs
    exact ⟨_, .failed ((gives_ticks_iff hs k).2 ⟨_, h, rfl⟩)
      ((returns_ticks_iff hs₁.budget k).2 ⟨_, hf, rfl⟩)⟩
  | passed h hv _ ih =>
    have hs₁ := h.lasting State.lasting_unbounded hs
    obtain ⟨rs', h'⟩ := ih (State.lasting_unbounded.of_evaluates hv.evaluates hs₁)
    exact ⟨_, .passed ((gives_ticks_iff hs k).2 ⟨_, h, rfl⟩)
      ((returns_ticks_iff hs₁.budget k).2 ⟨_, hv, rfl⟩) h'⟩

theorem Repeats.of_ticks {k : Nat} (h : Repeats lib condition body n last (State.tick^[k] s) rs o)
    (hs : s.Unbounded) :
    ∃ rs' o', Repeats lib condition body n last s rs' o' ∧
      o = ⟨o'.result, State.tick^[k] o'.state⟩ := by
  generalize ht : State.tick^[k] s = t at h
  induction h generalizing s with
  | untested h =>
    subst ht
    obtain ⟨o', hlacks, rfl⟩ := (lacks_ticks_iff hs k).1 h
    exact ⟨_, _, .untested hlacks, rfl⟩
  | stopped h =>
    subst ht
    obtain ⟨s', hfalse, rfl⟩ := (gives_ticks_iff hs k).1 h
    exact ⟨_, _, .stopped hfalse, rfl⟩
  | failed h hf =>
    subst ht
    obtain ⟨s₁, htrue, rfl⟩ := (gives_ticks_iff hs k).1 h
    have hs₁ := htrue.lasting State.lasting_unbounded hs
    obtain ⟨⟨result, s'⟩, hbody, he⟩ := (returns_ticks_iff hs₁.budget k).1 hf
    cases he
    exact ⟨_, _, .failed htrue hbody, rfl⟩
  | passed h hv _ ih =>
    subst ht
    obtain ⟨s₁, htrue, rfl⟩ := (gives_ticks_iff hs k).1 h
    have hs₁ := htrue.lasting State.lasting_unbounded hs
    obtain ⟨⟨result, s₂⟩, hbody, he⟩ := (returns_ticks_iff hs₁.budget k).1 hv
    cases he
    obtain ⟨rs', o', hrest, rfl⟩ := ih (State.lasting_unbounded.of_evaluates hbody.evaluates hs₁) rfl
    exact ⟨_, o', .passed htrue hbody hrest, rfl⟩

end Ticks

theorem State.lasting_steps {n : Nat} (hn : n ≤ Meter.ceiling) :
    Lasting fun s => n ≤ s.meter.steps where
  tick s hs := by
    simp only [tick, Meter.tick]
    omega
  apply s e hs := by rwa [meter_apply]

def Loops (lib : Library) (condition body : Place) (s : State) (o : Outcome) : Prop :=
  ∃ n rs, Repeats lib condition body n none s rs o

section Early

variable {lib : Library} {p : Place} {condition body : Nat} {s : State} {o : Outcome}

theorem returns_whileLoop_iff (hp : lib.node? p = some (.apply .whileLoop [condition, body]))
    (hs : s.meter.budget = none) :
    Returns lib p s o ↔
      Lacks Value.toBoolean lib .whileLoop ⟨p.graph, condition⟩ s.tick o ∨
      ∃ b s₁, Gives Value.toBoolean lib ⟨p.graph, condition⟩ s.tick b s₁ ∧
        Loops lib ⟨p.graph, condition⟩ ⟨p.graph, body⟩ s₁ o := by
  constructor
  · intro h
    obtain ⟨rs, hrs⟩ := Machine.Asks.of_returns h
    obtain ⟨hlacks, _⟩ | ⟨b, s₁, n, rs', hb, hloop, _⟩ := (asks_whileLoop_iff hp hs).1 hrs
    · exact .inl hlacks
    · exact .inr ⟨b, s₁, hb, n, rs', hloop⟩
  · rintro (hlacks | ⟨b, s₁, hb, n, rs, hloop⟩)
    · exact ((asks_whileLoop_iff hp hs).2 (.inl ⟨hlacks, rfl⟩)).returns
    · exact ((asks_whileLoop_iff hp hs).2 (.inr ⟨b, s₁, n, rs, hb, hloop, rfl⟩)).returns

theorem loops_of_gives {b : Bool} {s₁ : State} (hs : s.Unbounded)
    (hpure : lib.PureAt ⟨p.graph, condition⟩)
    (hb : Gives Value.toBoolean lib ⟨p.graph, condition⟩ s b s₁) :
    ∃ k, s₁ = State.tick^[k] s ∧
      ∀ o, Loops lib ⟨p.graph, condition⟩ ⟨p.graph, body⟩ s₁ o ↔
        ∃ o', Loops lib ⟨p.graph, condition⟩ ⟨p.graph, body⟩ s o' ∧
          o = ⟨o'.result, State.tick^[k] o'.state⟩ := by
  obtain ⟨v, hv, _⟩ := hb
  obtain ⟨_, k, rfl⟩ := hpure.returns hv.evaluates
  refine ⟨k, rfl, fun o => ⟨?_, ?_⟩⟩
  · rintro ⟨n, rs, h⟩
    obtain ⟨rs', o', h', rfl⟩ := h.of_ticks hs
    exact ⟨o', ⟨n, rs', h'⟩, rfl⟩
  · rintro ⟨o', ⟨n, rs, h⟩, rfl⟩
    obtain ⟨rs', h'⟩ := h.ticks hs k
    exact ⟨n, rs', h'⟩

theorem Loops.lasting {condition body : Place} {P : State → Prop} (hP : State.Lasting P)
    (h : Loops lib condition body s o) (hs : P s) : P o.state := by
  obtain ⟨n, rs, h⟩ := h
  exact h.lasting hP hs

theorem Loops.lacks_or_gives {condition body : Place} (h : Loops lib condition body s o) :
    Lacks Value.toBoolean lib .whileLoop condition s o ∨
      ∃ b s₁, Gives Value.toBoolean lib condition s b s₁ := by
  obtain ⟨n, rs, h⟩ := h
  cases h with
  | untested h => exact .inl h
  | stopped h => exact .inr ⟨_, _, h⟩
  | failed h _ => exact .inr ⟨_, _, h⟩
  | passed h _ _ => exact .inr ⟨_, _, h⟩

theorem State.unbounded_tick (hs : s.meter.budget = none) : s.tick.Unbounded :=
  ⟨hs, Nat.min_le_right _ _⟩

theorem Loops.returns (hp : lib.node? p = some (.apply .whileLoop [condition, body]))
    (hs : s.meter.budget = none) (hpure : lib.PureAt ⟨p.graph, condition⟩)
    (h : Loops lib ⟨p.graph, condition⟩ ⟨p.graph, body⟩ s.tick o) :
    Returns lib p s o ∧ (∃ f, o.result = .error f) ∨
      ∃ c k, Returns lib ⟨p.graph, condition⟩ s.tick c ∧ c.state = State.tick^[k] s.tick ∧
        Returns lib p s ⟨o.result, State.tick^[k] o.state⟩ := by
  obtain hlacks | ⟨b, s₁, hb⟩ := h.lacks_or_gives
  · refine .inl ⟨(returns_whileLoop_iff hp hs).2 (.inl hlacks), ?_⟩
    cases hlacks with
    | failed => exact ⟨_, rfl⟩
    | refused => exact ⟨_, rfl⟩
  · obtain ⟨k, rfl, hiff⟩ := loops_of_gives (State.unbounded_tick hs) hpure hb
    have hlater := (returns_whileLoop_iff hp hs).2 (.inr ⟨b, _, hb, (hiff _).2 ⟨o, h, rfl⟩⟩)
    obtain ⟨v, hv, _⟩ := hb
    exact .inr ⟨_, k, hv, rfl, hlater⟩

theorem exists_loops_of_returns (hp : lib.node? p = some (.apply .whileLoop [condition, body]))
    (hs : s.meter.budget = none) (hpure : lib.PureAt ⟨p.graph, condition⟩) (h : Returns lib p s o) :
    ∃ o', Loops lib ⟨p.graph, condition⟩ ⟨p.graph, body⟩ s.tick o' := by
  obtain hlacks | ⟨b, s₁, hb, hloop⟩ := (returns_whileLoop_iff hp hs).1 h
  · exact ⟨o, 0, _, .untested hlacks⟩
  · obtain ⟨k, rfl, hiff⟩ := loops_of_gives (State.unbounded_tick hs) hpure hb
    obtain ⟨o', ho', _⟩ := (hiff o).1 hloop
    exact ⟨o', ho'⟩

end Early

/-- The condition of a loop is evaluated once before the loop begins. If it is pure, then nothing
but the count of the steps can tell. -/
theorem early_test_is_invisible (lib : Library) (p : Place) (condition body : Nat) (s : State)
    (hp : lib.node? p = some (.apply .whileLoop [condition, body])) (hs : s.meter.budget = none) :
    (∀ rs v s', Asks lib p s rs ⟨.ok v, s'⟩ →
      ∃ b s₁ n rs', Gives Value.toBoolean lib ⟨p.graph, condition⟩ s.tick b s₁ ∧
        Repeats lib ⟨p.graph, condition⟩ ⟨p.graph, body⟩ n none s₁ rs' ⟨.ok v, s'⟩ ∧
        rs = ⟨⟨p.graph, condition⟩, s.tick⟩ :: rs' ∧
        rs.map (·.place) = ⟨p.graph, condition⟩ ::
          (List.replicate n [⟨p.graph, condition⟩, ⟨p.graph, body⟩]).flatten ++
          [⟨p.graph, condition⟩]) ∧
    (lib.PureAt ⟨p.graph, condition⟩ →
      ((∃ o, Returns lib p s o) ↔
        ∃ o, Loops lib ⟨p.graph, condition⟩ ⟨p.graph, body⟩ s.tick o) ∧
      ∀ o o', Returns lib p s o →
        Loops lib ⟨p.graph, condition⟩ ⟨p.graph, body⟩ s.tick o' →
        o.result = o'.result ∧ o.state.scope = o'.state.scope ∧ o.state.heap = o'.state.heap ∧
        o.state.printer = o'.state.printer ∧
        ∀ v, o.result = .ok v → ∃ c k, Returns lib ⟨p.graph, condition⟩ s.tick c ∧
          c.state = State.tick^[k] s.tick ∧ o.state = State.tick^[k] o'.state ∧
          (o.state.meter.steps < Meter.ceiling →
            o.state.meter.steps + s.tick.meter.steps =
              o'.state.meter.steps + c.state.meter.steps)) := by
  refine ⟨?_, fun hpure => ⟨⟨?_, ?_⟩, ?_⟩⟩
  · intro rs v s' h
    obtain ⟨hlacks, _⟩ | ⟨b, s₁, n, rs', hb, hloop, rfl⟩ := (asks_whileLoop_iff hp hs).1 h
    · cases hlacks
    · exact ⟨b, s₁, n, rs', hb, hloop, rfl, by rw [List.map_cons, hloop.map_place]; rfl⟩
  · rintro ⟨o, ho⟩
    exact exists_loops_of_returns hp hs hpure ho
  · rintro ⟨o, ho⟩
    obtain ⟨hreturns, _⟩ | ⟨_, _, _, _, hreturns⟩ := ho.returns hp hs hpure
    · exact ⟨o, hreturns⟩
    · exact ⟨_, hreturns⟩
  · intro o o' ho ho'
    have hstart := State.unbounded_tick hs
    obtain ⟨hreturns, f, hf⟩ | ⟨c, k, hc, hk, hreturns⟩ := ho'.returns hp hs hpure
    · obtain rfl := ho.unique hreturns
      refine ⟨rfl, rfl, rfl, rfl, fun v hv => ?_⟩
      rw [hf] at hv
      cases hv
    · obtain rfl := ho.unique hreturns
      refine ⟨rfl, o'.state.scope_ticks k, o'.state.heap_ticks k, ?_, ?_⟩
      · rw [State.ticks_eq]
      · intro v _
        refine ⟨c, k, hc, hk, rfl, fun hlt => ?_⟩
        have hend := ho'.lasting State.lasting_unbounded hstart
        have hle := ho'.lasting (State.lasting_steps hstart.steps_le) (Nat.le_refl _)
        rw [hend.ticks_eq] at hlt ⊢
        rw [hk, hstart.ticks_eq]
        dsimp only at hlt ⊢
        omega

theorem early_test_is_invisible_two_passes :
    ∃ (lib : Library) (s : State) (rs : List Request) (o o' : Outcome),
      Asks lib ⟨0, 10⟩ s rs o ∧
      rs.map (·.place) = [⟨0, 9⟩, ⟨0, 9⟩, ⟨0, 6⟩, ⟨0, 9⟩, ⟨0, 6⟩, ⟨0, 9⟩] ∧
      Loops lib ⟨0, 9⟩ ⟨0, 6⟩ s.tick o' ∧ o'.result = o.result ∧ o.result = .ok (.boolean true) ∧
      o'.state.scope = o.state.scope ∧ o.state.meter.steps = 23 ∧ o'.state.meter.steps = 20 := by
  let g : Graph := #[.var "y", .var "z", .apply .assign [1, 0], .var "z", .var "x",
    .apply .assign [4, 3], .apply .prog2 [5, 2], .var "y", .var "x", .apply .ne [8, 7],
    .apply .whileLoop [9, 6]]
  let lib : Library := Library.add {} g
  let s : State :=
    { scope := ((Scope.bind {} "x" (.boolean false)).bind "y" (.boolean true)).bind "z" .nop }
  have hread : Program.read .standard "y z setq z x setq prog2 y x != while" = .ok ⟨g, 10⟩ := rfl
  have hplace : ∀ id, lib.Descends ⟨0, id⟩ :=
    Library.descends_next {} (Program.wellFormed_of_read hread).1.descending
  have hscope : s.scope.Descends lib :=
    ((Scope.all_empty.bind "x" trivial).bind "y" trivial).bind "z" trivial
  have hpure : lib.PureAt ⟨0, 9⟩ := by
    have hreach : ∀ q, lib.Reach (· = ⟨0, 9⟩) q → q = ⟨0, 9⟩ ∨ q = ⟨0, 8⟩ ∨ q = ⟨0, 7⟩ := by
      intro q hq
      induction hq with
      | start h => exact .inl h
      | operand _ hn hx ih =>
        obtain rfl | rfl | rfl := ih
        · cases hn
          exact .inr (by simpa using hx)
        · cases hn
        · cases hn
    intro q n hq hn
    obtain rfl | rfl | rfl := hreach q hq
    · cases hn
      rfl
    · cases hn
      trivial
    · cases hn
      trivial
  have hrun : (evaluate 60 lib ⟨0, 10⟩ s).map (fun o => (o.result, o.state.meter.steps)) =
      some (.ok (.boolean true), 23) := by decide +kernel
  have htest : (evaluate 10 lib ⟨0, 9⟩ s.tick).map (·.state.meter.steps) = some 4 := by
    decide +kernel
  have hplaces : (Machine.requests lib 60 ⟨.enter ⟨0, 10⟩, [], s⟩).map (·.place) =
      [⟨0, 9⟩, ⟨0, 9⟩, ⟨0, 6⟩, ⟨0, 9⟩, ⟨0, 6⟩, ⟨0, 9⟩] := by decide +kernel
  obtain ⟨o, ho, hvalues⟩ := Option.map_eq_some_iff.1 hrun
  obtain ⟨hresult, hsteps⟩ := Prod.mk.inj hvalues
  obtain ⟨c, hc, hcount⟩ := Option.map_eq_some_iff.1 htest
  have hloop : Returns lib ⟨0, 10⟩ s o := (Library.legible (hplace 10) hscope).returns ⟨60, ho⟩
  obtain ⟨_, hinvisible⟩ := early_test_is_invisible lib ⟨0, 10⟩ 9 6 s rfl rfl
  obtain ⟨hiff, hsame⟩ := hinvisible hpure
  obtain ⟨o', ho'⟩ := hiff.1 ⟨o, hloop⟩
  obtain ⟨hresults, hscopes, _, _, hcounts⟩ := hsame o o' hloop ho'
  obtain ⟨c', k, hc', _, _, hdifference⟩ := hcounts _ hresult
  obtain rfl := hc'.ends.unique ⟨10, hc⟩
  have hdifference := hdifference (by rw [hsteps]; decide)
  have hstart : s.tick.meter.steps = 1 := rfl
  exact ⟨lib, s, _, o, o', ⟨hloop, 60, ho, rfl⟩, hplaces, ho', hresults.symm, hresult, hscopes.symm,
    hsteps, by omega⟩

end ReversePolish
