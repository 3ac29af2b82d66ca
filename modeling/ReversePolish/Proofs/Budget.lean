import ReversePolish.Proofs.Printing

namespace ReversePolish

def Printer.text : Printer → String
  | .buffer text | .terminal text => text
  | .silent => ""

theorem Meter.overrun?_of_le {m : Meter} {b' : Option Nat}
    (hb : ∀ k ∈ b', ∃ j ∈ m.budget, j ≤ k) (h : m.overrun? = none) :
    overrun? { m with budget := b' } = none := by
  rw [overrun?_eq_none_iff] at h ⊢
  intro k hk
  obtain ⟨j, hj, hle⟩ := hb k hk
  exact Nat.le_trans (h j hj) hle

def Disguise.budget (b : Option Nat) : Disguise where
  state s := { s with meter := { s.meter with budget := b } }
  scope_state _ := rfl
  heap_state _ := rfl
  tick_state _ := rfl
  apply_state s e := by cases e <;> rfl

namespace Machine

variable {lib : Library} {m : Machine} {o : Outcome}

theorem lockstep {b' : Option Nat} (hb : ∀ k ∈ b', ∃ j ∈ m.state.meter.budget, j ≤ k)
    (hm : m.state.meter.overrun? = none) (h : Ends lib m o) :
    o.cut? = none ∧
        Ends lib ((Disguise.budget b').machine m) ((Disguise.budget b').outcome o) ∧
        (Returns lib ((Disguise.budget b').machine m) ((Disguise.budget b').outcome o) ↔
          Returns lib m o) ∨
      ∃ k m', m'.CutShort o k ∧ m'.state.meter.budget = m.state.meter.budget ∧
        Reaches lib ((Disguise.budget b').machine m) ((Disguise.budget b').machine m') := by
  -- On the steps of the shorter run. Nothing is overrun before a step, so the two machines differ in
  -- their budgets only, and the first node that is too much is one too much.
  obtain ⟨fuel, h⟩ := h
  induction fuel generalizing m with
  | zero => cases h
  | succ fuel ih =>
    match ho : m.charged.meter.overrun? with
    | some k =>
      obtain ⟨o', hs, hcut⟩ := step_of_overrun hm ho
      rw [run_succ_of_done hs] at h
      obtain rfl := Option.some.inj h
      exact .inr ⟨k, m, hcut, rfl, .refl⟩
    | none =>
      have hkeeps : KeepsMeter m.charged.meter (m.step lib) := keepsMeter_step ho
      have hsame : ((Disguise.budget b').state m.charged).meter.overrun? =
          m.charged.meter.overrun? := by
        rw [ho]
        exact Meter.overrun?_of_le (by rw [budget_charged]; exact hb) ho
      have hstep := (Disguise.budget b').step_machine lib hsame
      have hhangs : ((Disguise.budget b').machine m).Hangs lib ↔ m.Hangs lib :=
        (Disguise.budget b').hangs_machine hsame
      match hs : m.step lib with
      | .done o' =>
        rw [hs] at hkeeps hstep
        rw [run_succ_of_done hs] at h
        obtain rfl := Option.some.inj h
        refine .inl ⟨hkeeps.1, .of_done hstep, ?_⟩
        rw [returns_iff_of_done hstep, returns_iff_of_done hs, hhangs]
      | .next m' =>
        rw [hs] at hkeeps hstep
        rw [run_succ_of_next hs] at h
        have hmeter : m'.state.meter = m.charged.meter := hkeeps
        have hbudget : m'.state.meter.budget = m.state.meter.budget := by
          rw [hmeter, budget_charged]
        obtain ⟨hcut, hends, hreturns⟩ | ⟨k, m'', hcut, hk, hreach⟩ :=
          ih (by rw [hbudget]; exact hb) (by rw [hmeter]; exact ho) h
        · refine .inl ⟨hcut, .of_next hstep hends, ?_⟩
          rw [returns_iff_of_next hstep, returns_iff_of_next hs, hhangs, hreturns]
        · exact .inr ⟨k, m'', hcut, hk.trans hbudget, .head hstep hreach⟩

end Machine

theorem Printer.text_println (p : Printer) (line : String) :
    ∃ rest, (p.println line).text = p.text ++ rest := by
  cases p with
  | buffer text => exact ⟨line ++ "\n", by simp [println, Printer.text, String.append_assoc]⟩
  | terminal text => exact ⟨line ++ "\n", by simp [println, Printer.text, String.append_assoc]⟩
  | silent => exact ⟨"", rfl⟩

structure State.Past (s₀ s : State) : Prop where
  steps : s₀.meter.steps ≤ s.meter.steps
  text : ∃ rest, s.printer.text = s₀.printer.text ++ rest

namespace State.Past

variable {s₀ s : State}

theorem refl (s : State) : Past s s :=
  ⟨Nat.le_refl _, "", by simp⟩

theorem tick (h : Past s₀ s) (hc : s₀.meter.steps ≤ Meter.ceiling) : Past s₀ s.tick :=
  ⟨Nat.le_min.2 ⟨Nat.le_succ_of_le h.steps, hc⟩, h.text⟩

theorem apply (h : Past s₀ s) (e : Effect) : Past s₀ (s.apply e) := by
  refine ⟨by rw [meter_apply]; exact h.steps, ?_⟩
  obtain ⟨rest, hrest⟩ := h.text
  cases e with
  | println line =>
    obtain ⟨more, hmore⟩ := s.printer.text_println line
    refine ⟨rest ++ more, ?_⟩
    rw [State.apply, hmore, hrest, String.append_assoc]
  | _ => exact ⟨rest, hrest⟩

end State.Past

namespace Machine

variable {lib : Library} {m : Machine} {o : Outcome} {frames : List Frame} {s s₀ : State}

def StaysPast (s₀ : State) : Turn → Prop :=
  Turn.All (fun m => s₀.Past m.charged) fun o => s₀.Past o.state

theorem staysPast_settle {graph : Nat} {op : Operation} (hc : s₀.meter.steps ≤ Meter.ceiling)
    (h : s₀.Past s) (r : Response) : StaysPast s₀ (settle graph op frames s r) := by
  match r with
  | .ok (effect, .await place pending) => exact (h.apply effect).tick hc
  | .ok (effect, .finish v) => exact h.apply effect
  | .error cause => exact h

theorem staysPast_visit (hc : s₀.meter.steps ≤ Meter.ceiling) (h : s₀.Past s) (p : Place) :
    StaysPast s₀ (visit lib p frames s) :=
  visit_cases (fun _ => h) (fun _ => h) (fun _ _ _ _ => h) (fun _ => h) fun _ _ _ =>
    staysPast_settle hc h _

theorem staysPast_step (hc : s₀.meter.steps ≤ Meter.ceiling) (h : s₀.Past m.charged) :
    StaysPast s₀ (m.step lib) := by
  obtain ⟨control, frames, s⟩ := m
  cases control with
  | enter p =>
    change s₀.Past s.tick at h
    simp only [step]
    cases s.tick.meter.overrun? with
    | some budget => exact h
    | none => exact staysPast_visit hc h p
  | deliver v =>
    cases frames with
    | nil => exact h
    | cons f frames => exact staysPast_settle hc h _

theorem past_of_ends (hc : m.charged.meter.steps ≤ Meter.ceiling) (h : Ends lib m o) :
    m.charged.Past o.state :=
  run_invariant (fun _ => staysPast_step hc) h (.refl _)

end Machine

/-- A run within its budget is the run under every greater one, and both return or neither does. A
run that exceeds it does so by one step, and every run under a greater budget goes further and
prints what it has printed. No limit at all, which is the greatest, is never exceeded. -/
theorem budget_only_truncates (lib : Library) (p : Place) (scope : Scope) (heap : Heap)
    (printer : Printer) (b b' : Option Nat) (hb : ∀ k ∈ b', ∃ j ∈ b, j ≤ k) (o : Outcome)
    (ho : Evaluates lib p ⟨scope, heap, { budget := b }, printer⟩ o) :
    (o.cut? = none → ∃ o', Evaluates lib p ⟨scope, heap, { budget := b' }, printer⟩ o' ∧
      (Returns lib p ⟨scope, heap, { budget := b' }, printer⟩ o' ↔
        Returns lib p ⟨scope, heap, { budget := b }, printer⟩ o) ∧
      o'.result = o.result ∧ o'.state.scope = o.state.scope ∧ o'.state.heap = o.state.heap ∧
      o'.state.printer = o.state.printer ∧ o'.state.meter.steps = o.state.meter.steps) ∧
    (∀ k, o.cut? = some k → b = some k ∧ o.state.meter.steps = k + 1 ∧
      ∀ o', Evaluates lib p ⟨scope, heap, { budget := b' }, printer⟩ o' →
        k < o'.state.meter.steps ∧
        ∃ rest, o'.state.printer.text = o.state.printer.text ++ rest) ∧
    (b = none → o.cut? = none) := by
  have hm : Meter.overrun? { budget := b } = none := by
    rw [Meter.overrun?_eq_none_iff]
    exact fun k _ => Nat.zero_le k
  obtain ⟨hcut, hends, hreturns⟩ | ⟨k, m, hcut, hk, hreach⟩ := Machine.lockstep hb hm ho.ends
  · refine ⟨fun _ => ⟨_, hends, hreturns, rfl, rfl, rfl, rfl, rfl⟩, ?_, fun _ => hcut⟩
    intro k h
    rw [hcut] at h
    cases h
  · have hbudget : b = some k := hk.symm.trans hcut.budget
    refine ⟨?_, ?_, ?_⟩
    · intro h
      rw [hcut.cut] at h
      cases h
    · intro k' hk'
      obtain rfl : k = k' := Option.some.inj (hcut.cut.symm.trans hk')
      refine ⟨hbudget, by rw [hcut.state, hcut.steps], ?_⟩
      intro o' ho'
      have hcharged := (Disguise.budget b').charged_machine m
      have hpast := Machine.past_of_ends (by rw [hcharged]; exact hcut.steps_le)
        (hreach.ends_of ho'.ends)
      rw [hcharged] at hpast
      have hsteps : m.charged.meter.steps ≤ o'.state.meter.steps := hpast.steps
      rw [hcut.steps] at hsteps
      rw [hcut.state]
      exact ⟨hsteps, hpast.text⟩
    · intro h
      rw [h] at hbudget
      cases hbudget

theorem budget_only_truncates_print :
    ∃ o o', Evaluates ⟨#[#[.apply .nop [], .apply .print [0], .apply .prog2 [1, 1]]]⟩ ⟨0, 2⟩
        ⟨{}, {}, { budget := some 3 }, .buffer ""⟩ o ∧
      Evaluates ⟨#[#[.apply .nop [], .apply .print [0], .apply .prog2 [1, 1]]]⟩ ⟨0, 2⟩
        ⟨{}, {}, { budget := some 5 }, .buffer ""⟩ o' ∧
      o.cut? = some 3 ∧ o.state.meter.steps = 4 ∧ o.state.printer = .buffer "nop\n" ∧
      o'.cut? = none ∧ 3 < o'.state.meter.steps ∧ o'.state.printer = .buffer "nop\nnop\n" ∧
      ∃ rest, o'.state.printer.text = o.state.printer.text ++ rest := by
  let lib : Library := ⟨#[#[.apply .nop [], .apply .print [0], .apply .prog2 [1, 1]]]⟩
  have hshort : evaluate 20 lib ⟨0, 2⟩ ⟨{}, {}, { budget := some 3 }, .buffer ""⟩ =
      some ⟨.error (.of (.budgetExceeded 3) (some .prog2)),
        ⟨{}, {}, ⟨some 3, 4⟩, .buffer "nop\n"⟩⟩ := rfl
  have hlong : evaluate 20 lib ⟨0, 2⟩ ⟨{}, {}, { budget := some 5 }, .buffer ""⟩ =
      some ⟨.ok .nop, ⟨{}, {}, ⟨some 5, 5⟩, .buffer "nop\nnop\n"⟩⟩ := rfl
  have hb : ∀ k ∈ some 5, ∃ j ∈ some 3, j ≤ k := by simp
  obtain ⟨_, hcut, _⟩ := budget_only_truncates lib ⟨0, 2⟩ {} {} (.buffer "") (some 3) (some 5) hb _
    ⟨20, hshort⟩
  obtain ⟨_, hsteps, hfurther⟩ := hcut 3 rfl
  obtain ⟨hmore, htext⟩ := hfurther _ ⟨20, hlong⟩
  exact ⟨_, _, ⟨20, hshort⟩, ⟨20, hlong⟩, rfl, hsteps, rfl, rfl, hmore, rfl, htext⟩

end ReversePolish
