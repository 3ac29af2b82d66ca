import Mathlib.Algebra.GroupWithZero.Nat
import ReversePolish.Proofs.Attribution
import ReversePolish.Proofs.CurrentGraph
import ReversePolish.Proofs.Printing

namespace ReversePolish

namespace State

structure Unbounded (s : State) : Prop where
  budget : s.meter.budget = none
  steps_le : s.meter.steps ≤ Meter.ceiling

theorem lasting_unlimited : Lasting fun s => s.meter.budget = none where
  tick _ hs := hs
  apply s e hs := by rw [meter_apply, hs]

theorem lasting_unbounded : Lasting Unbounded where
  tick _ hs := ⟨hs.budget, Nat.min_le_right _ _⟩
  apply s e hs := by
    obtain ⟨hbudget, hsteps⟩ := hs
    exact ⟨by rw [meter_apply, hbudget], by rw [meter_apply]; exact hsteps⟩

theorem Unbounded.ticks_eq {s : State} (hs : s.Unbounded) (n : Nat) :
    tick^[n] s = { s with meter := ⟨none, min (n + s.meter.steps) Meter.ceiling⟩ } := by
  rw [State.ticks_eq, Meter.ticks_eq hs.steps_le, hs.budget]

theorem Unbounded.overrun? {s : State} (hs : s.Unbounded) : s.meter.overrun? = none := by
  simp [Meter.overrun?, hs.budget]

def fresh (s : State) : State :=
  { scope := s.scope, heap := s.heap }

def followedBy (s t : State) : State where
  scope := t.scope
  heap := t.heap
  meter := ⟨none, min (s.meter.steps + t.meter.steps) Meter.ceiling⟩
  printer := s.printer.append t.printer.captured

theorem unbounded_followedBy (s t : State) : (s.followedBy t).Unbounded :=
  ⟨rfl, Nat.min_le_right _ _⟩

end State

section Runs

variable {lib : Library} {p : Place} {s : State} {o : Outcome}

theorem returns_ticks_iff (hs : s.meter.budget = none) (n : Nat) :
    Returns lib p (State.tick^[n] s) o ↔
      ∃ o', Returns lib p s o' ∧ o = ⟨o'.result, State.tick^[n] o'.state⟩ := by
  refine (Disguise.ticks n).returns_iff State.lasting_unlimited ?_ hs
  intro t ht
  have hticks : ((Disguise.ticks n).state t).meter.budget = none := by
    rw [← ht]
    exact t.budget_ticks n
  rw [Meter.overrun?, Meter.overrun?, hticks, ht, Option.filter_none, Option.filter_none]

theorem returns_iff_fresh (hs : s.Unbounded) :
    Returns lib p s o ↔ ∃ o', Returns lib p s.fresh o' ∧ o = ⟨o'.result, s.followedBy o'.state⟩ := by
  obtain ⟨scope, heap, ⟨budget, steps⟩, printer⟩ := s
  obtain ⟨rfl, hsteps⟩ : budget = none ∧ steps ≤ Meter.ceiling := ⟨hs.budget, hs.steps_le⟩
  have hfresh : State.Unbounded { scope, heap } := ⟨rfl, Nat.zero_le _⟩
  have hstart : (⟨scope, heap, ⟨none, steps⟩, .buffer ""⟩ : State) =
      State.tick^[steps] { scope, heap } := by
    rw [hfresh.ticks_eq]
    simp [hsteps]
  rw [returns_printer_iff, hstart]
  constructor
  · rintro ⟨result, scope', heap', meter', text, hreturns, rfl⟩
    obtain ⟨⟨result', t⟩, ho', he⟩ := (returns_ticks_iff rfl steps).1 hreturns
    have ht : t.Unbounded := State.lasting_unbounded.of_evaluates ho'.evaluates hfresh
    refine ⟨_, ho', ?_⟩
    simp only [ht.ticks_eq, Outcome.mk.injEq, State.mk.injEq] at he
    obtain ⟨rfl, rfl, rfl, rfl, hprinter⟩ := he
    simp only [State.followedBy, ← hprinter, Printer.captured]
  · rintro ⟨⟨result, t⟩, ho', rfl⟩
    have ht : t.Unbounded := State.lasting_unbounded.of_evaluates ho'.evaluates hfresh
    obtain ⟨text, htext⟩ : ∃ text, t.printer = .buffer text :=
      lasting_buffer.of_evaluates ho'.evaluates ⟨"", rfl⟩
    have hreturns := (returns_ticks_iff rfl steps).2 ⟨_, ho', rfl⟩
    simp only [ht.ticks_eq, htext] at hreturns
    refine ⟨result, _, _, _, text, hreturns, ?_⟩
    simp only [State.followedBy, htext, Printer.captured]

end Runs

def Evaluator.fresh (graph : Nat) (e : Evaluator) : Evaluator :=
  ⟨graph, e.state.fresh⟩

/-- Programs that are run one after the other, with the results and the evaluators after each. Each
begins with what `renew` makes of the evaluator that is left by the one before. -/
inductive InTurn (lib : Library) (renew : Evaluator → Evaluator) :
    Evaluator → List Place → List (Except Fault Value × Evaluator) → Evaluator → Prop
  | nil (e) : InTurn lib renew e [] [] e
  | cons {e p result e₁ ps rs e'} : Evaluator.Returns lib p (renew e) result e₁ →
      InTurn lib renew e₁ ps rs e' → InTurn lib renew e (p :: ps) ((result, e₁) :: rs) e'

namespace State

variable {s t : State}

def followedByAll (s : State) (rs : List (Except Fault Value × Evaluator)) (t : State) : State where
  scope := t.scope
  heap := t.heap
  meter := ⟨none, min (s.meter.steps + (rs.map (·.2.state.meter.steps)).sum) Meter.ceiling⟩
  printer := s.printer.append (String.join (rs.map (·.2.state.printer.captured)))

theorem followedByAll_nil (hs : s.Unbounded) (ht : t.fresh = s.fresh) : s.followedByAll [] t = s := by
  obtain ⟨scope, heap, ⟨budget, steps⟩, printer⟩ := s
  obtain ⟨rfl, hsteps⟩ : budget = none ∧ steps ≤ Meter.ceiling := ⟨hs.budget, hs.steps_le⟩
  obtain ⟨hscope, hheap⟩ : t.scope = scope ∧ t.heap = heap := by simpa [fresh] using ht
  simp [followedByAll, hscope, hheap, hsteps]

theorem followedByAll_cons (s t : State) (result : Except Fault Value) (e : Evaluator)
    (rs : List (Except Fault Value × Evaluator)) :
    s.followedByAll ((result, e) :: rs) t = (s.followedBy e.state).followedByAll rs t := by
  simp only [followedByAll, followedBy, List.map_cons, List.sum_cons, String.join_cons,
    Printer.append_append, mk.injEq, Meter.mk.injEq, true_and, and_true]
  omega

end State

namespace InTurn

variable {lib : Library} {graph : Nat} {e e' f f' : Evaluator} {ps : List Place}
  {rs : List (Except Fault Value × Evaluator)}

theorem separate (graph : Nat) (h : InTurn lib id e ps rs e') (he : e.state.Unbounded)
    (hf : f.state.fresh = e.state.fresh) :
    ∃ rs' f', InTurn lib (Evaluator.fresh graph) f ps rs' f' ∧ rs'.map (·.1) = rs.map (·.1) ∧
      e' = ⟨e.graph, e.state.followedByAll rs' f'.state⟩ := by
  induction h generalizing f with
  | nil e => exact ⟨[], f, .nil f, rfl, by rw [State.followedByAll_nil he hf]⟩
  | @cons e p result e₁ ps rs e' hr _ ih =>
    obtain ⟨hgraph, hreturns⟩ := Evaluator.returns_iff.1 hr
    obtain ⟨o, ho, hsame⟩ := (returns_iff_fresh he).1 hreturns
    obtain ⟨rfl, hstate⟩ := Outcome.mk.inj hsame
    have he₁ : e₁.state.Unbounded := hstate ▸ e.state.unbounded_followedBy o.state
    obtain ⟨rs', f', h', hresults, rfl⟩ := ih (f := ⟨graph, o.state⟩) he₁ (by rw [hstate]; rfl)
    have hnew : Evaluator.Returns lib p (f.fresh graph) o.result ⟨graph, o.state⟩ :=
      Evaluator.returns_iff.2 ⟨rfl, by rw [Evaluator.fresh, hf]; exact ho⟩
    refine ⟨_, f', .cons hnew h', by simp only [List.map_cons, hresults], ?_⟩
    rw [State.followedByAll_cons, hstate, hgraph]
    rfl

theorem share (h : InTurn lib (Evaluator.fresh graph) f ps rs f') (he : e.state.Unbounded)
    (hf : f.state.fresh = e.state.fresh) :
    ∃ rs', InTurn lib id e ps rs' ⟨e.graph, e.state.followedByAll rs f'.state⟩ ∧
      rs'.map (·.1) = rs.map (·.1) := by
  induction h generalizing e with
  | nil f => exact ⟨[], by rw [State.followedByAll_nil he hf]; exact .nil e, rfl⟩
  | @cons f p result f₁ ps rs f' hr _ ih =>
    obtain ⟨_, hreturns⟩ := Evaluator.returns_iff.1 hr
    rw [Evaluator.fresh, hf] at hreturns
    let e₁ : Evaluator := ⟨e.graph, e.state.followedBy f₁.state⟩
    have hnext : Evaluator.Returns lib p (id e) result e₁ :=
      Evaluator.returns_iff.2 ⟨rfl, (returns_iff_fresh he).2 ⟨_, hreturns, rfl⟩⟩
    obtain ⟨rs', h', hresults⟩ := ih (e := e₁) (e.state.unbounded_followedBy f₁.state) rfl
    rw [State.followedByAll_cons]
    exact ⟨_, .cons hnext h', by simp only [List.map_cons, hresults]⟩

end InTurn

theorem Evaluator.evaluate_of_missing {lib : Library} {e : Evaluator} {node : Nat}
    (he : e.state.Unbounded) (hn : lib.node? ⟨e.graph, node⟩ = none) (fuel : Nat) :
    e.evaluate (fuel + 1) lib node =
      some (.error (.of (.notAnExpression node) none), { e with state := e.state.tick }) := by
  have hrefused : Refused lib ⟨e.graph, node⟩ e.state (.notAnExpression node) :=
    .missing (State.lasting_unbounded.tick e.state he).overrun? hn
  rw [evaluate_eq, ReversePolish.evaluate, Machine.run_succ_of_done (hrefused.step [])]
  rfl

/-- Programs that are run one after the other by one evaluator return just if each of them does so
in a new one, and with the same results. The bindings and the arrays are the same in the end, the
counts add up and the texts come one after the other. Whatever is evaluated, and whether or not it
fails, the current graph is put back. So in between there is no node to evaluate, and the attempt
counts as one step and changes nothing else. -/
theorem reused_interpreters_are_like_new (lib : Library) (empty : Nat)
    (hempty : lib.graph empty = #[]) (scope : Scope) (heap : Heap) (printer : Printer)
    (ps : List Place) :
    let start : Evaluator := ⟨empty, scope, heap, {}, printer⟩
    (∀ results e', (∃ rs, InTurn lib id start ps rs e' ∧ rs.map (·.1) = results) ↔
      ∃ rs e, InTurn lib (Evaluator.fresh empty) start ps rs e ∧ rs.map (·.1) = results ∧
        e' = ⟨empty, e.state.scope, e.state.heap,
          ⟨none, min (rs.map (·.2.state.meter.steps)).sum Meter.ceiling⟩,
          printer.append (String.join (rs.map (·.2.state.printer.captured)))⟩) ∧
    (∀ (e e' : Evaluator) fuel node result,
      e.evaluate fuel lib node = some (result, e') → e'.graph = e.graph) ∧
    ∀ rs e', InTurn lib id start ps rs e' → ∀ node fuel, e'.evaluate (fuel + 1) lib node =
      some (.error (.of (.notAnExpression node) none), ⟨empty, e'.state.scope, e'.state.heap,
        ⟨none, min (e'.state.meter.steps + 1) Meter.ceiling⟩, e'.state.printer⟩) := by
  intro start
  have hstart : start.state.Unbounded := ⟨rfl, Nat.zero_le _⟩
  have hall : ∀ rs t, start.state.followedByAll rs t =
      ⟨t.scope, t.heap, ⟨none, min (rs.map (·.2.state.meter.steps)).sum Meter.ceiling⟩,
        printer.append (String.join (rs.map (·.2.state.printer.captured)))⟩ := by
    intro rs t
    simp [State.followedByAll, start]
  refine ⟨?_, ?_, ?_⟩
  · intro results e'
    constructor
    · rintro ⟨rs, h, rfl⟩
      obtain ⟨rs', f', h', hresults, rfl⟩ := h.separate _ hstart rfl
      exact ⟨rs', f', h', hresults, by rw [hall]⟩
    · rintro ⟨rs, f', h, rfl, rfl⟩
      obtain ⟨rs', h', hresults⟩ := h.share hstart rfl
      rw [hall] at h'
      exact ⟨rs', h', hresults⟩
  · intro e e' fuel node result h
    rw [Evaluator.evaluate_eq] at h
    obtain ⟨o, _, ho⟩ := Option.map_eq_some_iff.1 h
    cases ho
    rfl
  · intro rs e' h node fuel
    obtain ⟨rs', f', _, _, rfl⟩ := h.separate empty hstart rfl
    have hnone : lib.node? ⟨empty, node⟩ = none := by simp [Library.node?, hempty]
    exact Evaluator.evaluate_of_missing ⟨rfl, Nat.min_le_right _ _⟩ hnone fuel

theorem reused_interpreters_are_like_new_failing :
    ∃ (lib : Library) (rs : List (Except Fault Value × Evaluator)) (e : Evaluator),
      lib.node? ⟨1, 1⟩ = some (.apply .call [0]) ∧ lib.graph 3 = #[] ∧
      InTurn lib id ⟨3, {}, {}, {}, .terminal "> "⟩ [⟨0, 7⟩, ⟨1, 1⟩, ⟨2, 1⟩] rs e ∧
      rs.map (·.1) = [.ok (.deferred .subroutine ⟨0, 5⟩),
        .error (.of (.missingVariable "y") (some .prog2)), .ok .nop] ∧
      e.graph = 3 ∧ e.state.scope.find? "x" = some .nop ∧ e.state.meter = ⟨none, 10⟩ ∧
      e.state.printer = .terminal "> nop\nnop\n" ∧
      e.evaluate 1 lib 3 = some (.error (.of (.notAnExpression 3) none),
        ⟨3, e.state.scope, e.state.heap, ⟨none, 11⟩, e.state.printer⟩) := by
  let g₀ : Graph := #[.var "y", .apply .nop [], .apply .print [1], .var "x", .apply .assign [3, 2],
    .apply .prog2 [4, 0], .var "f", .apply .define [6, 5]]
  let g₁ : Graph := #[.var "f", .apply .call [0]]
  let g₂ : Graph := #[.var "x", .apply .print [0]]
  let lib : Library := (((Library.add {} g₀).add g₁).add g₂).add #[]
  let f : Value := .deferred .subroutine ⟨0, 5⟩
  let scope₁ : Scope := Scope.bind {} "f" f
  let scope₂ : Scope := scope₁.bind "x" .nop
  let fault : Fault := .of (.missingVariable "y") (some .prog2)
  have hread₀ : Program.read .standard "y nop print x setq prog2 f defsub" = .ok ⟨g₀, 7⟩ := rfl
  have hread₁ : Program.read .standard "f call" = .ok ⟨g₁, 1⟩ := rfl
  have hread₂ : Program.read .standard "x print" = .ok ⟨g₂, 1⟩ := rfl
  have hg₁ := (Program.wellFormed_of_read hread₁).1.descending
  have hg₂ := (Program.wellFormed_of_read hread₂).1.descending
  have hnil : Graph.Descending #[] := nofun
  have hplace₀ : ∀ id, lib.Descends ⟨0, id⟩ := fun id =>
    (((Library.descends_next {} (Program.wellFormed_of_read hread₀).1.descending id).add hg₁).add
      hg₂).add hnil
  have hplace₁ : lib.Descends ⟨1, 1⟩ := ((Library.descends_next _ hg₁ 1).add hg₂).add hnil
  have hplace₂ : lib.Descends ⟨2, 1⟩ := (Library.descends_next _ hg₂ 1).add hnil
  have hscope₀ : Scope.Descends lib {} := Scope.all_empty
  have hscope₁ : scope₁.Descends lib := hscope₀.bind "f" (hplace₀ 5)
  have hscope₂ : scope₂.Descends lib := hscope₁.bind "x" trivial
  have h₀ : Returns lib ⟨0, 7⟩ {} ⟨.ok f, { scope := scope₁, meter := ⟨none, 1⟩ }⟩ :=
    (Library.legible (hplace₀ 7) hscope₀).returns ⟨20, rfl⟩
  have h₁ : Returns lib ⟨1, 1⟩ { scope := scope₁ }
      ⟨.error fault, ⟨scope₂, {}, ⟨none, 7⟩, .buffer "nop\n"⟩⟩ :=
    (Library.legible hplace₁ hscope₁).returns ⟨20, rfl⟩
  have h₂ : Returns lib ⟨2, 1⟩ { scope := scope₂ }
      ⟨.ok .nop, ⟨scope₂, {}, ⟨none, 2⟩, .buffer "nop\n"⟩⟩ :=
    (Library.legible hplace₂ hscope₂).returns ⟨20, rfl⟩
  have hturns : InTurn lib (Evaluator.fresh 3) ⟨3, {}, {}, {}, .terminal "> "⟩
      [⟨0, 7⟩, ⟨1, 1⟩, ⟨2, 1⟩]
      [(.ok f, ⟨3, { scope := scope₁, meter := ⟨none, 1⟩ }⟩),
        (.error fault, ⟨3, scope₂, {}, ⟨none, 7⟩, .buffer "nop\n"⟩),
        (.ok .nop, ⟨3, scope₂, {}, ⟨none, 2⟩, .buffer "nop\n"⟩)]
      ⟨3, scope₂, {}, ⟨none, 2⟩, .buffer "nop\n"⟩ :=
    .cons (Evaluator.returns_iff.2 ⟨rfl, h₀⟩) (.cons (Evaluator.returns_iff.2 ⟨rfl, h₁⟩)
      (.cons (Evaluator.returns_iff.2 ⟨rfl, h₂⟩) (.nil _)))
  obtain ⟨hiff, _, hbare⟩ :=
    reused_interpreters_are_like_new lib 3 rfl {} {} (.terminal "> ") [⟨0, 7⟩, ⟨1, 1⟩, ⟨2, 1⟩]
  obtain ⟨rs, h, hresults⟩ := (hiff _ _).2 ⟨_, _, hturns, rfl, rfl⟩
  exact ⟨lib, rs, _, rfl, rfl, h, hresults, rfl, by simp [scope₂], rfl, rfl, hbare rs _ h 3 0⟩

end ReversePolish
