import ReversePolish.Proofs.Legibility
import ReversePolish.Proofs.Nesting

namespace ReversePolish

inductive Refused (lib : Library) (p : Place) (s : State) : Cause → Prop
  | charge {budget} : s.tick.meter.overrun? = some budget → Refused lib p s (.budgetExceeded budget)
  | missing : s.tick.meter.overrun? = none → lib.node? p = none →
      Refused lib p s (.notAnExpression p.node)
  | unbound {name} : s.tick.meter.overrun? = none → lib.node? p = some (.var name) →
      s.scope.find? name = none → Refused lib p s (.missingVariable name)

namespace Machine

/-- The next step enters the node of an operation and has charged for it. -/
def Opens (lib : Library) (m : Machine) (op : Operation) : Prop :=
  ∃ p operands, m.visited? = some p ∧ lib.node? p = some (.apply op operands)

/-- The operation is entered on the way, and its node, evaluated from there, has no value. -/
structure Unfinished (lib : Library) (start m : Machine) (op : Operation) : Prop where
  reached : Reaches lib start m
  opens : m.Opens lib op
  no_value : ∀ p v s, m.control = .enter p → ¬ Evaluates lib p m.state ⟨.ok v, s⟩

variable {lib : Library} {start m m' : Machine} {p : Place} {s : State} {f : Fault} {o : Outcome}
  {op : Operation} {frames base : List Frame}

section Steps

theorem Opens.unique {op' : Operation} (h : m.Opens lib op) (h' : m.Opens lib op') : op = op' := by
  obtain ⟨p, operands, hp, hn⟩ := h
  obtain ⟨p', operands', hp', hn'⟩ := h'
  obtain rfl := Option.some.inj (hp.symm.trans hp')
  rw [hn] at hn'
  exact (Node.apply.inj (Option.some.inj hn')).1

theorem not_opens_of_refused {cause : Cause} (hp : m.control = .enter p)
    (h : Refused lib p m.state cause) : ¬ m.Opens lib op := by
  rintro ⟨q, operands, hq, hn⟩
  obtain ⟨hq, hover⟩ := visited?_eq_some hq
  obtain rfl := Control.enter.inj (hp.symm.trans hq)
  cases h with
  | charge hover' =>
    rw [hover] at hover'
    cases hover'
  | missing _ hn' | unbound _ hn' =>
    rw [hn] at hn'
    cases hn'

theorem step_cases {P : Turn → Prop}
    (refused : ∀ p cause, m.control = .enter p → Refused lib p m.state cause →
      P (fail m.frames m.state.tick cause))
    (leaf : ∀ v, P (.next ⟨.deliver v, m.frames, m.state.tick⟩))
    (opened : ∀ graph op r, m.Opens lib op → P (settle graph op m.frames m.state.tick r))
    (finished : ∀ v, m.frames = [] → P (.done ⟨.ok v, m.state⟩))
    (resumed : ∀ v f fs r, m.control = .deliver v → m.frames = f :: fs →
      P (settle f.graph f.operation fs m.state r)) :
    P (m.step lib) := by
  obtain ⟨control, frames, s⟩ := m
  cases control with
  | enter p =>
    cases hover : s.tick.meter.overrun? with
    | some budget =>
      simp only [step, hover]
      exact refused p _ rfl (.charge hover)
    | none =>
      have hvisited : visited? ⟨.enter p, frames, s⟩ = some p := by simp only [visited?, hover]
      simp only [step, hover, visit]
      cases hn : lib.node? p with
      | none => exact refused p _ rfl (.missing hover hn)
      | some n =>
        cases n with
        | var name =>
          dsimp only
          cases hv : s.tick.scope.find? name with
          | none => exact refused p _ rfl (.unbound hover hn hv)
          | some v => exact leaf v
        | num x => exact leaf _
        | apply op operands => exact opened _ op _ ⟨p, operands, hvisited, hn⟩
  | deliver v =>
    cases frames with
    | nil => exact finished v rfl
    | cons f fs => exact resumed v f fs _ rfl rfl

theorem settle_eq_next {graph : Nat} {r : Response} (h : settle graph op frames s r = .next m') :
    (∃ p pending, m'.control = .enter p ∧ m'.frames = ⟨graph, op, pending⟩ :: frames) ∨
      ∃ v, m'.control = .deliver v ∧ m'.frames = frames := by
  match r with
  | .ok (effect, .await place pending) =>
    obtain rfl := Turn.next.inj h
    exact .inl ⟨place, pending, rfl, rfl⟩
  | .ok (effect, .finish v) =>
    obtain rfl := Turn.next.inj h
    exact .inr ⟨v, rfl, rfl⟩
  | .error cause => cases h

theorem fault_of_settle {graph : Nat} {r : Response} {s' : State}
    (h : settle graph op frames s r = .done ⟨.error f, s'⟩) : ∃ cause, f = .of cause (some op) := by
  match r with
  | .ok (effect, .await place pending) => cases h
  | .ok (effect, .finish v) => cases h
  | .error cause =>
    cases h
    exact ⟨cause, rfl⟩

theorem step_eq_next (h : m.step lib = .next m') :
    (∃ v, m'.control = .deliver v ∧ m'.frames = m.frames) ∨
    (∃ p graph op pending, m.Opens lib op ∧ m'.control = .enter p ∧
      m'.frames = ⟨graph, op, pending⟩ :: m.frames) ∨
    ∃ f fs, m.frames = f :: fs ∧
      ((∃ p pending, m'.control = .enter p ∧ m'.frames = ⟨f.graph, f.operation, pending⟩ :: fs) ∨
        ∃ v, m'.control = .deliver v ∧ m'.frames = fs) := by
  revert h
  refine step_cases (P := fun t => t = .next m' → _) ?refused ?leaf ?opened ?finished ?resumed
  case refused =>
    intro p cause _ _ h
    cases h
  case leaf =>
    intro v h
    obtain rfl := Turn.next.inj h
    exact .inl ⟨v, rfl, rfl⟩
  case opened =>
    intro graph op r hopens h
    obtain ⟨p, pending, hp, hframes⟩ | hleaves := settle_eq_next h
    · exact .inr (.inl ⟨p, graph, op, pending, hopens, hp, hframes⟩)
    · exact .inl hleaves
  case finished =>
    intro v _ h
    cases h
  case resumed =>
    intro v f fs r _ hframes h
    exact .inr (.inr ⟨f, fs, hframes, settle_eq_next h⟩)

theorem frames_ne_nil_of_enter (h : m.step lib = .next m') (hp : m'.control = .enter p) :
    m'.frames ≠ [] := by
  obtain ⟨v, hv, _⟩ | ⟨_, _, _, _, _, _, hframes⟩ | ⟨f, fs, _, ⟨_, _, _, hframes⟩ | ⟨v, hv, _⟩⟩ :=
    step_eq_next h
  · rw [hp] at hv
    cases hv
  · simp [hframes]
  · simp [hframes]
  · rw [hp] at hv
    cases hv

theorem frames_of_next {above below : List Frame} {f : Frame} (h : m.step lib = .next m')
    (hframes : m'.frames = above ++ f :: below) :
    m.Opens lib f.operation ∧ m.frames = below ∨
      ∃ above' f', m.frames = above' ++ f' :: below ∧ f'.operation = f.operation := by
  obtain ⟨v, _, he⟩ | ⟨_, graph, op, pending, hopens, _, he⟩ |
    ⟨g, fs, hg, ⟨_, pending, _, he⟩ | ⟨v, _, he⟩⟩ := step_eq_next h
  · exact .inr ⟨above, f, by rw [← he, hframes], rfl⟩
  · rw [he] at hframes
    cases above with
    | nil =>
      obtain ⟨rfl, rfl⟩ := List.cons.inj hframes
      exact .inl ⟨hopens, rfl⟩
    | cons g above =>
      exact .inr ⟨above, f, (List.cons.inj hframes).2, rfl⟩
  · rw [he] at hframes
    cases above with
    | nil =>
      obtain ⟨rfl, rfl⟩ := List.cons.inj hframes
      exact .inr ⟨[], g, hg, rfl⟩
    | cons g' above =>
      obtain ⟨rfl, rfl⟩ := List.cons.inj hframes
      exact .inr ⟨g :: above, f, hg, rfl⟩
  · exact .inr ⟨g :: above, f, by rw [hg, ← he, hframes]; rfl, rfl⟩

theorem step_eq_error (h : m.step lib = .done ⟨.error f, s⟩) :
    (∃ op, m.Opens lib op ∧ f.operation = some op) ∨
    (∀ op, ¬ m.Opens lib op) ∧ f.operation = m.frames.head?.map (·.operation) ∧
      (m.frames = [] → ∃ p, m.control = .enter p ∧ Refused lib p m.state f.cause) := by
  revert h
  refine step_cases (P := fun t => t = .done ⟨.error f, s⟩ → _) ?refused ?leaf ?opened ?finished
    ?resumed
  case refused =>
    intro p cause hp hrefused h
    cases h
    exact .inr ⟨fun _ => not_opens_of_refused hp hrefused, rfl, fun _ => ⟨p, hp, hrefused⟩⟩
  case leaf =>
    intro v h
    cases h
  case opened =>
    intro graph op r hopens h
    obtain ⟨cause, rfl⟩ := fault_of_settle h
    exact .inl ⟨op, hopens, rfl⟩
  case finished =>
    intro v _ h
    cases h
  case resumed =>
    intro v g fs r hv hframes h
    obtain ⟨cause, rfl⟩ := fault_of_settle h
    refine .inr ⟨?_, by rw [hframes]; rfl, ?_⟩
    · rintro op ⟨q, _, hq, _⟩
      rw [(visited?_eq_some hq).1] at hv
      cases hv
    · intro he
      rw [hframes] at he
      cases he

theorem message_eq (h : m.step lib = .done ⟨.error f, s⟩) : f.message = f.cause.message := by
  revert h
  refine step_cases (P := fun t => t = .done ⟨.error f, s⟩ → _) ?refused ?leaf ?opened ?finished
    ?resumed
  case refused =>
    intro p cause _ _ h
    cases h
    rfl
  case leaf =>
    intro v h
    cases h
  case opened =>
    intro graph op r _ h
    obtain ⟨cause, rfl⟩ := fault_of_settle h
    rfl
  case finished =>
    intro v _ h
    cases h
  case resumed =>
    intro v g fs r _ _ h
    obtain ⟨cause, rfl⟩ := fault_of_settle h
    rfl

end Steps

section Runs

def alone (m : Machine) : Machine :=
  { m with frames := [] }

theorem alone_onto (m : Machine) : m.alone.onto m.frames = m := rfl

theorem Opens.enters (h : m.Opens lib op) : ∃ p, m.control = .enter p := by
  obtain ⟨p, _, hp, _⟩ := h
  exact ⟨p, (visited?_eq_some hp).1⟩

theorem next_of_onto (m₀ : Machine) (hactive : m₀.frames ≠ [] ∨ ∃ p, m₀.control = .enter p)
    (h : (m₀.onto base).step lib = .next m') (hlt : base.length < m'.frames.length) :
    ∃ m₀', m₀.step lib = .next m₀' ∧ m' = m₀'.onto base ∧ m₀'.frames ≠ [] := by
  rw [step_onto lib base hactive] at h
  match hs : m₀.step lib with
  | .next m₀' =>
    rw [hs] at h
    obtain rfl := Turn.next.inj h
    refine ⟨m₀', rfl, rfl, ?_⟩
    rintro he
    simp [onto, he] at hlt
  | .done ⟨.ok v, s⟩ =>
    rw [hs] at h
    obtain rfl := Turn.next.inj h
    exact absurd hlt (Nat.lt_irrefl _)
  | .done ⟨.error f, s⟩ =>
    rw [hs] at h
    cases h

theorem error_of_onto (m₀ : Machine) (hactive : m₀.frames ≠ [] ∨ ∃ p, m₀.control = .enter p)
    (h : (m₀.onto base).step lib = .done ⟨.error f, s⟩) : ∃ g, Ends lib m₀ ⟨.error g, s⟩ := by
  rw [step_onto lib base hactive] at h
  match hs : m₀.step lib with
  | .next m₀' | .done ⟨.ok v, s⟩ =>
    rw [hs] at h
    cases h
  | .done ⟨.error g, s'⟩ =>
    rw [hs] at h
    cases h
    exact ⟨g, .of_done hs⟩

theorem exists_opens (hstart : start.frames = []) (h : Reaches lib start m) :
    ∀ above f below, m.frames = above ++ f :: below →
      ∃ k m₀, Reaches lib start k ∧ k.Opens lib f.operation ∧ k.frames = below ∧
        Reaches lib k.alone m₀ ∧ m = m₀.onto below ∧ m₀.frames ≠ [] := by
  induction h with
  | refl =>
    intro above f below hframes
    simp [hstart] at hframes
  | @tail m m' hm hs ih =>
    intro above f below hframes
    have hlt : below.length < m'.frames.length := by
      simp only [hframes, List.length_append, List.length_cons]
      omega
    obtain ⟨hopens, rfl⟩ | ⟨above', f', hframes', hop⟩ := frames_of_next hs hframes
    · obtain ⟨m₀, hs₀, rfl, hne⟩ := next_of_onto m.alone (.inr hopens.enters) hs hlt
      exact ⟨m, m₀, hm, hopens, rfl, .of_next hs₀, rfl, hne⟩
    · obtain ⟨k, m₀, hk, hopens, hbelow, hreach, rfl, hne⟩ := ih above' f' below hframes'
      obtain ⟨m₀', hs₀, rfl, hne'⟩ := next_of_onto m₀ (.inl hne) hs hlt
      exact ⟨k, m₀', hk, hop ▸ hopens, hbelow, hreach.tail hs₀, rfl, hne'⟩

theorem evaluates_iff_ends_alone (hp : m.control = .enter p) :
    Evaluates lib p m.state o ↔ Ends lib m.alone o := by
  rw [alone, hp]
  rfl

theorem Ends.exists_last (h : Ends lib m o) : ∃ n, Reaches lib m n ∧ n.step lib = .done o := by
  obtain ⟨fuel, h⟩ := h
  induction fuel generalizing m with
  | zero => cases h
  | succ fuel ih =>
    cases hs : m.step lib with
    | next m' =>
      rw [run_succ_of_next hs] at h
      obtain ⟨n, hn, hdone⟩ := ih h
      exact ⟨n, .head hs hn, hdone⟩
    | done o' =>
      rw [run_succ_of_done hs] at h
      obtain rfl := Option.some.inj h
      exact ⟨m, .refl, hs⟩

theorem Reaches.total {n n' : Machine} (h : Reaches lib m n) (h' : Reaches lib m n') :
    Reaches lib n n' ∨ Reaches lib n' n :=
  Relation.ReflTransGen.total_of_right_unique
    (fun _ _ _ hs hs' => Turn.next.inj (hs.symm.trans hs')) h h'

theorem Reaches.eq_of_done {n : Machine} (h : Reaches lib m n) (hm : m.step lib = .done o) : n = m := by
  obtain rfl | ⟨m', hs, _⟩ := Relation.ReflTransGen.cases_head h
  · rfl
  · rw [hm] at hs
    cases hs

theorem Reaches.eq_start (h : Reaches lib start m) (hp : m.control = .enter p) (hm : m.frames = []) :
    m = start := by
  obtain rfl | ⟨n, _, hs⟩ := Relation.ReflTransGen.cases_tail h
  · rfl
  · exact absurd hm (frames_ne_nil_of_enter hs hp)

theorem Unfinished.inside (h : start.Unfinished lib m op) {n : Machine} (hn : Reaches lib m n) :
    n = m ∨ ∃ n₀ : Machine, n = n₀.onto m.frames ∧ n₀.frames ≠ [] := by
  obtain ⟨p, hp⟩ := h.opens.enters
  have hno : ∀ v s, ¬ Ends lib m.alone ⟨.ok v, s⟩ := fun v s he =>
    h.no_value p v s hp ((evaluates_iff_ends_alone hp).2 he)
  have hn : Reaches lib (m.alone.onto m.frames) n := hn
  obtain ⟨⟨control, frames, s⟩, hreach, rfl⟩ | ⟨v, s, hends, _⟩ := hn.of_onto
  · by_cases hframes : frames = []
    · subst hframes
      cases control with
      | enter q =>
        rw [hreach.eq_start rfl rfl]
        exact .inl (alone_onto m)
      | deliver v => exact absurd (hreach.ends (.of_done rfl)) (hno v s)
    · exact .inr ⟨_, rfl, hframes⟩
  · exact absurd hends (hno v s)

theorem Unfinished.length_lt (h : start.Unfinished lib m op) {n : Machine} (hn : Reaches lib m n)
    (hne : n ≠ m) : m.frames.length < n.frames.length := by
  obtain rfl | ⟨n₀, rfl, hn₀⟩ := h.inside hn
  · exact absurd rfl hne
  · have hpos := List.length_pos_iff.2 hn₀
    simp only [onto, List.length_append]
    omega

theorem Reaches.last {n last : Machine} (h : Reaches lib m last) (hlast : last.step lib = .done o)
    (hn : Reaches lib m n) : Reaches lib n last := by
  obtain hreach | hreach := hn.total h
  · exact hreach
  · rw [hreach.eq_of_done hlast]
    exact .refl

end Runs

section Failures

variable {last : Machine} (hstart : start.frames = []) (hlast : Reaches lib start last)
  (hdone : last.step lib = .done ⟨.error f, s⟩)

include hlast hdone in
theorem unfinished_last (hopens : last.Opens lib op) : start.Unfinished lib last op where
  reached := hlast
  opens := hopens
  no_value := by
    intro p v s' hp hv
    obtain ⟨g, hg⟩ := error_of_onto last.alone (.inr hopens.enters) hdone
    cases ((evaluates_iff_ends_alone hp).1 hv).unique hg

include hstart hlast hdone in
theorem exists_unfinished {g : Frame} {fs : List Frame} (hframes : last.frames = g :: fs) :
    ∃ k, start.Unfinished lib k g.operation ∧ k.frames = fs := by
  obtain ⟨k, m₀, hk, hopens, hbelow, hreach, rfl, hne⟩ := exists_opens hstart hlast [] g fs hframes
  obtain ⟨g', hg'⟩ := error_of_onto _ (.inl hne) hdone
  refine ⟨k, ⟨hk, hopens, ?_⟩, hbelow⟩
  intro p v s' hp hv
  cases ((evaluates_iff_ends_alone hp).1 hv).unique (hreach.ends hg')

include hstart hlast hdone in
theorem operation_eq_none_iff : f.operation = none ↔ ∀ k op, ¬ start.Unfinished lib k op := by
  obtain ⟨op, hopens, hop⟩ | ⟨hopens, hop, _⟩ := step_eq_error hdone
  · rw [hop]
    refine ⟨nofun, fun hnone => ?_⟩
    exact absurd (unfinished_last hlast hdone hopens) (hnone last op)
  · rw [hop]
    cases hframes : last.frames with
    | nil =>
      refine ⟨fun _ k op hk => ?_, fun _ => rfl⟩
      obtain rfl | ⟨n₀, rfl, hne⟩ := hk.inside (hlast.last hdone hk.reached)
      · exact hopens op hk.opens
      · exact hne (List.append_eq_nil_iff.1 hframes).1
    | cons g fs =>
      refine ⟨nofun, fun hnone => ?_⟩
      obtain ⟨k, hk, _⟩ := exists_unfinished hstart hlast hdone hframes
      exact absurd hk (hnone k _)

include hstart hlast hdone in
theorem exists_innermost (hop : f.operation = some op) :
    ∃ k, start.Unfinished lib k op ∧ ∀ k' op', start.Unfinished lib k' op' → Reaches lib k' k := by
  obtain ⟨op', hopens, hop'⟩ | ⟨hopens, hop', _⟩ := step_eq_error hdone
  · obtain rfl := Option.some.inj (hop.symm.trans hop')
    exact ⟨last, unfinished_last hlast hdone hopens, fun k' _ hk' => hlast.last hdone hk'.reached⟩
  · rw [hop] at hop'
    obtain ⟨g, hg, rfl⟩ := Option.map_eq_some_iff.1 hop'.symm
    obtain ⟨fs, hframes⟩ := List.head?_eq_some_iff.1 hg
    obtain ⟨k, hk, rfl⟩ := exists_unfinished hstart hlast hdone hframes
    refine ⟨k, hk, fun k' op' hk' => ?_⟩
    obtain hreach | hreach := hk'.reached.total hk.reached
    · exact hreach
    · -- Both are unfinished, so each leaves one frame of its own to the machine that fails.
      by_cases hne : k' = k
      · rw [hne]
        exact .refl
      · have hlast' : last ≠ k' := by
          rintro rfl
          exact hopens op' hk'.opens
        have hlt := hk.length_lt hreach hne
        have hlt' := hk'.length_lt (hlast.last hdone hk'.reached) hlast'
        rw [hframes, List.length_cons] at hlt'
        omega

include hstart hlast hdone in
theorem operation_eq_some_iff : f.operation = some op ↔
    ∃ k, start.Unfinished lib k op ∧ ∀ k' op', start.Unfinished lib k' op' → Reaches lib k' k := by
  refine ⟨exists_innermost hstart hlast hdone, ?_⟩
  rintro ⟨k, hk, hinner⟩
  cases hop : f.operation with
  | none => exact absurd hk ((operation_eq_none_iff hstart hlast hdone).1 hop k op)
  | some op' =>
    obtain ⟨k', hk', hinner'⟩ := exists_innermost hstart hlast hdone hop
    have hreach := hinner' k op hk
    have hreach' := hinner k' op' hk'
    have heq : k' = k := by
      by_contra hne
      have hlt := hk.length_lt hreach hne
      have hlt' := hk'.length_lt hreach' (Ne.symm hne)
      omega
    subst heq
    rw [hk.opens.unique hk'.opens]

end Failures

end Machine

theorem Refused.step {lib : Library} {p : Place} {s : State} {cause : Cause}
    (h : Refused lib p s cause) (frames : List Frame) :
    (⟨.enter p, frames, s⟩ : Machine).step lib =
      .done ⟨.error (.of cause (frames.head?.map (·.operation))), s.tick⟩ := by
  cases h with
  | charge hover =>
    simp only [Machine.step, hover]
    rfl
  | missing hover hn =>
    simp only [Machine.step, hover, Machine.visit, hn]
    rfl
  | unbound hover hn hv =>
    have hv : s.tick.scope.find? _ = none := hv
    simp only [Machine.step, hover, Machine.visit, hn, hv]
    rfl

theorem Refused.fault_eq {lib : Library} {start m : Machine} {p : Place} {cause : Cause} {f : Fault}
    {s : State} (h : Refused lib p m.state cause) (hm : Machine.Reaches lib start m)
    (hp : m.control = .enter p) (hends : Machine.Ends lib start ⟨.error f, s⟩) :
    f = .of cause (m.frames.head?.map (·.operation)) := by
  obtain ⟨control, frames, s'⟩ := m
  obtain rfl : control = .enter p := hp
  cases (hm.ends_of hends).unique (.of_done (h.step frames))
  rfl

theorem operation_eq_none_iff_refused {lib : Library} {p : Place} {s s' : State} {f : Fault}
    (h : Evaluates lib p s ⟨.error f, s'⟩) : f.operation = none ↔ Refused lib p s f.cause := by
  constructor
  · intro hnone
    obtain ⟨last, hlast, hdone⟩ := h.ends.exists_last
    obtain ⟨op, _, hop⟩ | ⟨_, hop, hrefused⟩ := Machine.step_eq_error hdone
    · rw [hnone] at hop
      cases hop
    · have hframes : last.frames = [] := by simpa [hnone] using hop.symm
      obtain ⟨q, hq, hcause⟩ := hrefused hframes
      obtain rfl := hlast.eq_start hq hframes
      obtain rfl := Control.enter.inj hq
      exact hcause
  · intro hrefused
    rw [hrefused.fault_eq .refl rfl h.ends]
    rfl

theorem evaluates_call_unbound {lib : Library} {p body : Place} {target : Nat} {name : String}
    {s s' : State} (hp : lib.node? p = some (.apply .call [target]))
    (hs : s.tick.meter.overrun? = none)
    (htarget : Evaluates lib ⟨p.graph, target⟩ s.tick ⟨.ok (.deferred .subroutine body), s'⟩)
    (hs' : s'.tick.meter.overrun? = none) (hbody : lib.node? body = some (.var name))
    (hname : s'.scope.find? name = none) :
    Evaluates lib p s ⟨.error (.of (.missingVariable name) (some .call)), s'.tick⟩ := by
  have hcall : (⟨.enter p, [], s⟩ : Machine).step lib =
      .next ⟨.enter ⟨p.graph, target⟩, [⟨p.graph, .call, .callee⟩], s.tick⟩ := by
    simp only [Machine.step, hs, Machine.visit, hp]
    rfl
  have hreach : Machine.Reaches lib ⟨.enter ⟨p.graph, target⟩, [⟨p.graph, .call, .callee⟩], s.tick⟩
      ⟨.deliver (.deferred .subroutine body), [⟨p.graph, .call, .callee⟩], s'⟩ :=
    htarget.ends.onto [⟨p.graph, .call, .callee⟩]
  have hrefused := (Refused.unbound hs' hbody hname).step [⟨p.graph, .call, .result⟩]
  exact Machine.Ends.of_next hcall (hreach.ends (.of_next rfl (.of_done hrefused)))

/-- The operation that a fault names is the last one, of those entered on the way and charged for,
that has come to no value. There is none just if the node itself was refused: it was one too many
for the budget, missing or an unbound variable. A node that is refused on the way is laid to the
operation that waits for it, as is a variable without a value that is called. -/
theorem faults_name_the_innermost_operation (lib : Library) :
    (∀ (p : Place) (s s' : State) (f : Fault), Evaluates lib p s ⟨.error f, s'⟩ →
      let start : Machine := { control := .enter p, state := s }
      (∀ op, f.operation = some op ↔ ∃ k, start.Unfinished lib k op ∧
        ∀ k' op', start.Unfinished lib k' op' → Machine.Reaches lib k' k) ∧
      (f.operation = none ↔ ∀ k op, ¬ start.Unfinished lib k op) ∧
      (f.operation = none ↔ Refused lib p s f.cause) ∧
      (∀ k q cause, Machine.Reaches lib start k → k.control = .enter q →
        Refused lib q k.state cause → f = .of cause (k.frames.head?.map (·.operation))) ∧
      f.message = f.cause.message ∧
      f.text = f.cause.message ++ f.operation.elim "" fun op => " (in `" ++ op.symbol ++ "`)") ∧
    ∀ (p body : Place) (target : Nat) (name : String) (s s' : State),
      lib.node? p = some (.apply .call [target]) → s.tick.meter.overrun? = none →
      Evaluates lib ⟨p.graph, target⟩ s.tick ⟨.ok (.deferred .subroutine body), s'⟩ →
      s'.tick.meter.overrun? = none → lib.node? body = some (.var name) →
      s'.scope.find? name = none →
      Evaluates lib p s ⟨.error (.of (.missingVariable name) (some .call)), s'.tick⟩ := by
  constructor
  · intro p s s' f h
    obtain ⟨last, hlast, hdone⟩ := h.ends.exists_last
    have hmessage : f.message = f.cause.message := Machine.message_eq hdone
    refine ⟨fun op => Machine.operation_eq_some_iff rfl hlast hdone,
      Machine.operation_eq_none_iff rfl hlast hdone, operation_eq_none_iff_refused h,
      fun k q cause hk hq hrefused => hrefused.fault_eq hk hq h.ends, hmessage, ?_⟩
    rw [Fault.text, hmessage]
    cases f.operation with
    | none => exact String.append_empty.symm
    | some op => simp only [Option.elim_some, String.append_assoc]
  · intro p body target name s s' hp hs htarget hs' hbody hname
    exact evaluates_call_unbound hp hs htarget hs' hbody hname

theorem faults_name_the_innermost_operation_loop :
    ∃ (lib : Library) (scope : Scope) (s s' : State) (k k' : Machine),
      let start (meter : Meter) : Machine := { control := .enter ⟨1, 3⟩, state := { scope, meter } }
      lib.node? ⟨1, 3⟩ = some (.apply .whileLoop [2, 1]) ∧ lib.node? ⟨1, 1⟩ = some (.apply .call [0]) ∧
      lib.node? ⟨0, 0⟩ = some (.var "y") ∧
      Evaluates lib ⟨1, 3⟩ { scope } ⟨.error (.of (.missingVariable "y") (some .call)), s⟩ ∧
      Evaluates lib ⟨1, 1⟩ { scope } ⟨.error (.of (.missingVariable "y") (some .call)), s'⟩ ∧
      (start {}).Unfinished lib k .call ∧
      (∀ n op, (start {}).Unfinished lib n op → Machine.Reaches lib n k) ∧
      Evaluates lib ⟨1, 3⟩ { scope, meter := ⟨some 3, 0⟩ }
        ⟨.error (.of (.budgetExceeded 3) (some .whileLoop)), { scope, meter := ⟨some 3, 4⟩ }⟩ ∧
      (start ⟨some 3, 0⟩).Unfinished lib k' .whileLoop ∧
      ∀ n op, (start ⟨some 3, 0⟩).Unfinished lib n op → Machine.Reaches lib n k' := by
  let lib : Library :=
    ⟨#[#[.var "y"], #[.var "f", .apply .call [0], .var "c", .apply .whileLoop [2, 1]]]⟩
  let scope : Scope := (Scope.bind {} "c" (.boolean true)).bind "f" (.deferred .subroutine ⟨0, 0⟩)
  have hrun : evaluate 20 lib ⟨1, 3⟩ { scope } =
      some ⟨.error (.of (.missingVariable "y") (some .call)), { scope, meter := ⟨none, 6⟩ }⟩ := rfl
  have hcut : evaluate 20 lib ⟨1, 3⟩ { scope, meter := ⟨some 3, 0⟩ } =
      some ⟨.error (.of (.budgetExceeded 3) (some .whileLoop)), { scope, meter := ⟨some 3, 4⟩ }⟩ := rfl
  obtain ⟨hfaults, hcalls⟩ := faults_name_the_innermost_operation lib
  obtain ⟨k, hk, hlast⟩ := ((hfaults _ _ _ _ ⟨20, hrun⟩).1 .call).1 rfl
  obtain ⟨k', hk', hlast'⟩ := ((hfaults _ _ _ _ ⟨20, hcut⟩).1 .whileLoop).1 rfl
  exact ⟨lib, scope, _, _, k, k', rfl, rfl, rfl, ⟨20, hrun⟩,
    hcalls ⟨1, 1⟩ ⟨0, 0⟩ 0 "y" { scope } _ rfl rfl ⟨2, rfl⟩ rfl rfl rfl, hk, hlast, ⟨20, hcut⟩,
    hk', hlast'⟩

end ReversePolish
