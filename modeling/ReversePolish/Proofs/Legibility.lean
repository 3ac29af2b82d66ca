import Mathlib.Data.Finset.Card
import Mathlib.Data.Finset.Filter
import ReversePolish.Proofs.Termination

/-!
What single steps look at and write out. A text that has no end would keep a step from ending, and
an evaluation returns if it comes to an end and no step on its way is kept so.
-/

namespace ReversePolish

namespace Graph

variable {g : Graph} {id : Nat} {t : Tree}

def IsOperand (g : Graph) (x id : Nat) : Prop :=
  ∃ op operands, g[id]? = some (.apply op operands) ∧ x ∈ operands

theorem Unfolds.not_transGen (h : g.Unfolds id t) : ¬ Relation.TransGen g.IsOperand id id := by
  -- A way back to the node goes through one of its operands, and so leads from there back to it as well.
  induction h with
  | missing hn | var hn | num hn =>
    intro hcycle
    obtain ⟨_, _, _, _, hn', _⟩ := Relation.TransGen.tail'_iff.1 hcycle
    rw [hn] at hn'
    cases hn'
  | apply tree hn _ ih =>
    intro hcycle
    obtain ⟨x, hreach, op, operands, hn', hx⟩ := Relation.TransGen.tail'_iff.1 hcycle
    rw [hn] at hn'
    obtain ⟨rfl, rfl⟩ : _ = op ∧ _ = operands := by simpa using hn'
    exact ih x hx (.head' ⟨_, _, hn, hx⟩ hreach)

open Classical in
noncomputable def below (g : Graph) (id : Nat) : Finset Nat :=
  (Finset.range g.size).filter fun x => Relation.TransGen g.IsOperand x id

theorem card_below_le (g : Graph) (id : Nat) : (g.below id).card ≤ g.size := by
  classical
  calc
    (g.below id).card ≤ (Finset.range g.size).card := Finset.card_filter_le _ _
    _ = g.size := Finset.card_range _

theorem Unfolds.card_below_lt {x : Nat} (h : g.Unfolds x t) (hx : x < g.size)
    (hop : g.IsOperand x id) : (g.below x).card < (g.below id).card := by
  classical
  apply Finset.card_lt_card
  rw [Finset.ssubset_iff_of_subset]
  · refine ⟨x, ?_, ?_⟩
    · exact Finset.mem_filter.2 ⟨Finset.mem_range.2 hx, .single hop⟩
    · exact fun hmem => h.not_transGen (Finset.mem_filter.1 hmem).2
  · intro y hy
    obtain ⟨hsize, hreach⟩ := Finset.mem_filter.1 hy
    exact Finset.mem_filter.2 ⟨hsize, hreach.tail hop⟩

theorem Unfolds.eq_missing (h : g.Unfolds id t) (hid : g.size ≤ id) : t = .missing id := by
  have hnone : g[id]? = none := Array.getElem?_eq_none hid
  cases h with
  | missing => rfl
  | var hn | num hn | apply _ hn =>
    rw [hnone] at hn
    cases hn

theorem Unfolds.unfoldTo_eq (h : g.Unfolds id t) :
    ∀ {depth : Nat}, (g.below id).card < depth → g.unfoldTo depth id = t := by
  induction h with
  | missing hn =>
    intro depth _
    exact unfoldTo_of_missing hn depth
  | var hn | num hn =>
    intro depth h
    obtain ⟨d, rfl⟩ := Nat.exists_eq_add_one_of_ne_zero (Nat.ne_zero_of_lt h)
    rw [unfoldTo, hn]
  | @apply id op operands tree hn hops ih =>
    intro depth h
    obtain ⟨d, rfl⟩ := Nat.exists_eq_add_one_of_ne_zero (Nat.ne_zero_of_lt h)
    rw [unfoldTo, hn]
    simp only [Tree.apply.injEq, true_and]
    apply List.map_congr_left
    intro x hx
    by_cases hsize : x < g.size
    · have hlt := (hops x hx).card_below_lt hsize ⟨op, operands, hn, hx⟩
      exact ih x hx (by omega)
    · rw [(hops x hx).eq_missing (by omega), unfoldTo_of_missing (Array.getElem?_eq_none (by omega))]

theorem Unfolds.unfold_eq (h : g.Unfolds id t) : g.unfold id = t :=
  h.unfoldTo_eq (Nat.lt_succ_of_le (g.card_below_le id))

end Graph

/-- The text of this place has no end. -/
def Library.Endless (lib : Library) (p : Place) : Prop :=
  ¬ ∃ t, (lib.graph p.graph).Unfolds p.node t

theorem Library.Endless.exists_node {lib : Library} {p : Place} (h : lib.Endless p) :
    ∃ n, lib.node? p = some n ∧ ∀ name, n ≠ .var name := by
  cases hn : lib.node? p with
  | none => exact absurd ⟨_, .missing hn⟩ h
  | some n =>
    refine ⟨n, rfl, ?_⟩
    rintro name rfl
    exact h ⟨_, .var hn⟩

def Operation.bindsAtOnce : Operation → Bool
  | .alloc | .define | .forLoop => true
  | _ => false

theorem Operation.binds_of_bindsAtOnce {op : Operation} (h : op.bindsAtOnce = true) :
    op.binds = true := by
  cases op with
  | alloc | define | forLoop => rfl
  | _ => cases h

def Node.target? : Node → Option Nat
  | .apply op (x :: xs) => if op.bindsAtOnce ∧ xs.length + 1 = op.arity then some x else none
  | _ => none

def Library.target? (lib : Library) (p : Place) : Option Place :=
  ((lib.node? p).bind Node.target?).map (⟨p.graph, ·⟩)

def Pending.inspected? (v : Value) : Pending → Option Nat
  | .assigned target => some target
  | .length target =>
    match v.toInteger with
    | .ok n => if 0 ≤ n ∧ n.toNat ≤ Heap.maxLength then some target else none
    | .error _ => none
  | _ => none

theorem Pending.inspected?_length {v : Value} {target : Nat} {n : Int} (hv : v.toInteger = .ok n)
    (hn : 0 ≤ n) (hle : n.toNat ≤ Heap.maxLength) :
    Pending.inspected? v (.length target) = some target := by
  simp only [inspected?, hv]
  exact if_pos ⟨hn, hle⟩

namespace Machine

def visited? (m : Machine) : Option Place :=
  match m.control, m.state.tick.meter.overrun? with
  | .enter p, none => some p
  | _, _ => none

def inspected? (lib : Library) (m : Machine) : Option Place :=
  match m.control, m.frames with
  | .enter _, _ => m.visited?.bind lib.target?
  | .deliver v, f :: _ => (f.pending.inspected? v).map (⟨f.graph, ·⟩)
  | .deliver _, [] => none

def printed? (m : Machine) : Option Value :=
  match m.control, m.frames with
  | .deliver v, ⟨_, _, .line⟩ :: _ => some v
  | _, _ => none

def combined? (m : Machine) : Option (List Value) :=
  match m.control, m.frames with
  | .deliver v, ⟨_, _, .operands done []⟩ :: _ => some (v :: done)
  | _, _ => none

inductive Writes (lib : Library) (m : Machine) : Place → Prop
  | printed {origin body} : m.printed? = some (.deferred origin body) → Writes lib m body
  | refused {q n} : m.inspected? lib = some q → lib.node? q = some n → (∀ name, n ≠ .var name) →
      Writes lib m q

/-- The next step does not end, for the text that it writes out. -/
def Hangs (lib : Library) (m : Machine) : Prop :=
  ∃ q, m.Writes lib q ∧ lib.Endless q

variable {lib lib' : Library} {m m' : Machine} {o o' : Outcome} {p q : Place} {v : Value}

theorem visited?_eq_some (h : m.visited? = some p) :
    m.control = .enter p ∧ m.state.tick.meter.overrun? = none := by
  obtain ⟨control, frames, s⟩ := m
  simp only [visited?] at h
  split at h
  · next ho =>
    obtain rfl := Option.some.inj h
    exact ⟨rfl, ho⟩
  · cases h

theorem printed?_eq_some (h : m.printed? = some v) :
    m.control = .deliver v ∧ ∃ graph op frames, m.frames = ⟨graph, op, .line⟩ :: frames := by
  obtain ⟨control, frames, s⟩ := m
  simp only [printed?] at h
  split at h
  · obtain rfl := Option.some.inj h
    exact ⟨rfl, _, _, _, rfl⟩
  · cases h

theorem combined?_eq_some {vs : List Value} (h : m.combined? = some vs) :
    ∃ v done graph op frames, vs = v :: done ∧ m.control = .deliver v ∧
      m.frames = ⟨graph, op, .operands done []⟩ :: frames := by
  obtain ⟨control, frames, s⟩ := m
  simp only [combined?] at h
  split at h
  · exact ⟨_, _, _, _, _, (Option.some.inj h).symm, rfl, rfl⟩
  · cases h

end Machine

theorem Node.target?_eq_some {n : Node} {x : Nat} (h : n.target? = some x) :
    ∃ op xs, n = .apply op (x :: xs) ∧ op.bindsAtOnce = true ∧ xs.length + 1 = op.arity := by
  unfold target? at h
  split at h
  · split at h
    · next hop =>
      obtain rfl := Option.some.inj h
      exact ⟨_, _, rfl, hop⟩
    · cases h
  · cases h

theorem Pending.target?_of_inspected? {pending : Pending} {v : Value} {x : Nat}
    (h : pending.inspected? v = some x) : pending.target? = some x := by
  unfold inspected? at h
  split at h
  · exact h
  · split at h
    · split at h
      · exact h
      · cases h
    · cases h
  · cases h

theorem Library.targetName_of_ne_var {lib : Library} {op : Operation} {p : Place} {n : Node}
    (hn : lib.node? p = some n) (hvar : ∀ name, n ≠ .var name) :
    lib.targetName op p = .error (.notAVariable op (lib.render p)) := by
  cases n with
  | var name => exact absurd rfl (hvar name)
  | num _ | apply _ _ => simp only [targetName, hn]

namespace Frame

variable {lib : Library} {graph : Nat} {op : Operation} {cause : Cause} {x : Nat}

theorem enter_of_target? {operands : List Nat} (hx : (Node.apply op operands).target? = some x)
    (h : lib.targetName op ⟨graph, x⟩ = .error cause) :
    enter lib graph op operands = .error cause := by
  obtain ⟨_, xs, he, hop, hlen⟩ := Node.target?_eq_some hx
  obtain ⟨rfl, rfl⟩ := Node.apply.inj he
  have hbind : ∀ f : String → Response, (lib.targetName op ⟨graph, x⟩ >>= f) = .error cause := by
    intro f
    rw [h]
    rfl
  cases op with
  | alloc => match xs, hlen with | [], _ => exact hbind _
  | define => match xs, hlen with | [_], _ => exact hbind _
  | forLoop => match xs, hlen with | [_, _, _], _ => exact hbind _
  | _ => cases hop

theorem resume_of_inspected? {pending : Pending} {scope : Scope} {heap : Heap} {v : Value}
    (hx : pending.inspected? v = some x) (h : lib.targetName op ⟨graph, x⟩ = .error cause) :
    resume lib scope heap ⟨graph, op, pending⟩ v = .error cause := by
  cases pending with
  | assigned target =>
    obtain rfl : target = x := Option.some.inj hx
    rw [resume_assigned, h]
    rfl
  | length target =>
    simp only [Pending.inspected?] at hx
    split at hx
    · next n hn =>
      split at hx
      · next hle =>
        obtain rfl : target = x := Option.some.inj hx
        simp only [resume, hn, h]
        change (if n < 0 then _ else if Heap.maxLength < n.toNat then _ else _) = _
        rw [if_neg (by omega), if_neg (by omega)]
        rfl
      · cases hx
    · cases hx
  | _ => cases hx

end Frame

namespace Machine

variable {lib lib' : Library} {m m' : Machine} {o o' : Outcome} {p q : Place} {v : Value}

theorem inspected?_eq_some (h : m.inspected? lib = some q) :
    (∃ p n x, m.visited? = some p ∧ lib.node? p = some n ∧ n.target? = some x ∧ q = ⟨p.graph, x⟩) ∨
    ∃ v f fs x, m.control = .deliver v ∧ m.frames = f :: fs ∧ f.pending.inspected? v = some x ∧
      q = ⟨f.graph, x⟩ := by
  obtain ⟨control, frames, s⟩ := m
  simp only [inspected?] at h
  split at h
  · obtain ⟨p, hp, htarget⟩ := Option.bind_eq_some_iff.1 h
    obtain ⟨x, hbind, rfl⟩ := Option.map_eq_some_iff.1 htarget
    obtain ⟨n, hn, hx⟩ := Option.bind_eq_some_iff.1 hbind
    exact .inl ⟨p, n, x, hp, hn, hx, rfl⟩
  · obtain ⟨x, hx, rfl⟩ := Option.map_eq_some_iff.1 h
    exact .inr ⟨_, _, _, x, rfl, rfl, hx, rfl⟩
  · cases h

theorem Writes.shows (h : m.Writes lib q) : m.Shows lib q := by
  obtain ⟨control, frames, s⟩ := m
  cases h with
  | printed hv =>
    obtain ⟨rfl, graph, op, fs, rfl⟩ := printed?_eq_some hv
    exact .printed rfl
  | refused hq =>
    obtain ⟨p, n, x, hp, hn, hx, rfl⟩ | ⟨v, f, fs, x, rfl, rfl, hx, rfl⟩ := inspected?_eq_some hq
    · obtain rfl : control = .enter p := (visited?_eq_some hp).1
      obtain ⟨op, xs, rfl, hop, _⟩ := Node.target?_eq_some hx
      exact .entered hn (Operation.binds_of_bindsAtOnce hop)
    · exact .resumed (Pending.target?_of_inspected? hx)

theorem step_of_refused {n : Node} (hq : m.inspected? lib = some q) (hn : lib.node? q = some n)
    (hvar : ∀ name, n ≠ .var name) :
    ∃ op, m.step lib = .done ⟨.error (.of (.notAVariable op (lib.render q)) (some op)), m.charged⟩ := by
  obtain ⟨control, frames, s⟩ := m
  obtain ⟨p, n', x, hp, hn', hx, rfl⟩ | ⟨v, f, fs, x, rfl, rfl, hx, rfl⟩ := inspected?_eq_some hq
  · obtain ⟨rfl, hover⟩ : control = .enter p ∧ s.tick.meter.overrun? = none := visited?_eq_some hp
    obtain ⟨op, xs, rfl, _⟩ := Node.target?_eq_some hx
    refine ⟨op, ?_⟩
    simp only [step, hover, visit, hn', Frame.enter_of_target? hx (Library.targetName_of_ne_var hn hvar)]
    rfl
  · refine ⟨f.operation, ?_⟩
    simp only [step, Frame.resume_of_inspected? hx (Library.targetName_of_ne_var hn hvar)]
    rfl

/-- The evaluation comes to an end, and no step on its way hangs. -/
structure Returns (lib : Library) (m : Machine) (o : Outcome) : Prop where
  ends : Ends lib m o
  goes_on : ∀ n, Reaches lib m n → ¬ n.Hangs lib

namespace Returns

theorem unique (h : Returns lib m o) (h' : Returns lib m o') : o = o' :=
  h.ends.unique h'.ends

theorem of_done (hm : ¬ m.Hangs lib) (h : m.step lib = .done o) : Returns lib m o where
  ends := .of_done h
  goes_on n hn := by
    obtain rfl | ⟨m', hs, _⟩ := Relation.ReflTransGen.cases_head hn
    · exact hm
    · rw [h] at hs
      cases hs

theorem of_next (hm : ¬ m.Hangs lib) (h : m.step lib = .next m') (hm' : Returns lib m' o) :
    Returns lib m o where
  ends := .of_next h hm'.ends
  goes_on n hn := by
    obtain rfl | ⟨k, hs, hk⟩ := Relation.ReflTransGen.cases_head hn
    · exact hm
    · obtain rfl : m' = k := Turn.next.inj (h.symm.trans hs)
      exact hm'.goes_on n hk

theorem reaches (h : Returns lib m o) (hm : Reaches lib m m') : Returns lib m' o where
  ends := hm.ends_of h.ends
  goes_on n hn := h.goes_on n (Relation.ReflTransGen.trans hm hn)

theorem next (h : Returns lib m o) (hs : m.step lib = .next m') : Returns lib m' o :=
  h.reaches (.of_next hs)

variable {R : Machine → Machine → Prop} {Q : Outcome → Outcome → Prop}

theorem rel (hangs : ∀ m m', R m m' → m'.Hangs lib' → m.Hangs lib)
    (step : ∀ m m', R m m' → ¬ m.Hangs lib → Turn.Rel R Q (m.step lib) (m'.step lib'))
    (h : Returns lib m o) (hm : R m m') : ∃ o', Returns lib' m' o' ∧ Q o o' := by
  obtain ⟨⟨fuel, hrun⟩, hgoes⟩ := h
  induction fuel generalizing m m' with
  | zero => cases hrun
  | succ fuel ih =>
    have hfree : ¬ m.Hangs lib := hgoes m .refl
    have hfree' : ¬ m'.Hangs lib' := fun h => hfree (hangs m m' hm h)
    have hs := step m m' hm hfree
    rw [run] at hrun
    generalize he : m.step lib = t, he' : m'.step lib' = t' at hs hrun
    cases hs with
    | next hn =>
      obtain ⟨o', ho', hq⟩ := ih hn (fun k hk => hgoes k (.head he hk)) hrun
      exact ⟨o', .of_next hfree' he' ho', hq⟩
    | done hq =>
      obtain rfl := Option.some.inj hrun
      exact ⟨_, .of_done hfree' he', hq⟩

theorem alike (hangs : ∀ m m', R m m' → (m'.Hangs lib' ↔ m.Hangs lib))
    (step : ∀ m m', R m m' → ¬ m.Hangs lib → Turn.Rel R Q (m.step lib) (m'.step lib'))
    (hm : R m m') :
    ((∃ o, Returns lib m o) ↔ ∃ o', Returns lib' m' o') ∧
      ∀ o o', Returns lib m o → Returns lib' m' o' → Q o o' := by
  have hleft : ∀ o, Returns lib m o → ∃ o', Returns lib' m' o' ∧ Q o o' := fun o ho =>
    ho.rel (fun n n' hn => (hangs n n' hn).1) step hm
  have hright : ∀ o', Returns lib' m' o' → ∃ o, Returns lib m o ∧ Q o o' := fun o' ho' =>
    ho'.rel (R := fun n' n => R n n') (Q := fun o' o => Q o o') (fun n' n hn => (hangs n n' hn).2)
      (fun n' n hn hfree => (step n n' hn (mt (hangs n n' hn).2 hfree)).flip) hm
  refine ⟨⟨?_, ?_⟩, ?_⟩
  · rintro ⟨o, ho⟩
    obtain ⟨o', ho', _⟩ := hleft o ho
    exact ⟨o', ho'⟩
  · rintro ⟨o', ho'⟩
    obtain ⟨o, ho, _⟩ := hright o' ho'
    exact ⟨o, ho⟩
  · intro o o' ho ho'
    obtain ⟨o'', ho'', hq⟩ := hleft o ho
    obtain rfl := ho'.unique ho''
    exact hq

end Returns

theorem returns_iff_of_next (hs : m.step lib = .next m') :
    Returns lib m o ↔ ¬ m.Hangs lib ∧ Returns lib m' o :=
  ⟨fun h => ⟨h.goes_on m .refl, h.next hs⟩, fun h => .of_next h.1 hs h.2⟩

theorem returns_iff_of_done (hs : m.step lib = .done o) : Returns lib m o ↔ ¬ m.Hangs lib :=
  ⟨fun h => h.goes_on m .refl, fun h => .of_done h hs⟩

end Machine

namespace Invariant.Holds

variable {lib : Library} {I : Invariant lib} {m : Machine} (hm : I.Holds m)

include hm

theorem visited {p : Place} (h : m.visited? = some p) : I.place p :=
  hm.enter p (Machine.visited?_eq_some h).1

theorem inspected {q : Place} (h : m.inspected? lib = some q) : I.place q := by
  obtain ⟨p, n, x, hp, hn, hx, rfl⟩ | ⟨v, f, fs, x, _, hf, hx, rfl⟩ := Machine.inspected?_eq_some h
  · obtain ⟨op, xs, rfl, _⟩ := Node.target?_eq_some hx
    exact I.operand (hm.visited hp) hn List.mem_cons_self
  · obtain ⟨id, operands, hp, hn, hw, _⟩ := hm.frames f (by simp [hf])
    exact I.operand hp hn (hw.target_mem (Pending.target?_of_inspected? hx))

theorem printed {v : Value} (h : m.printed? = some v) : I.value m.state.heap v :=
  hm.deliver v (Machine.printed?_eq_some h).1

theorem combined {vs : List Value} (h : m.combined? = some vs) :
    ∀ v ∈ vs, I.value m.state.heap v := by
  obtain ⟨v, done, graph, op, fs, rfl, hcontrol, hf⟩ := Machine.combined?_eq_some h
  obtain ⟨_, _, _, _, _, hkept⟩ := hm.frames ⟨graph, op, .operands done []⟩ (by simp [hf])
  intro w hw
  obtain rfl | hw := List.mem_cons.1 hw
  · exact hm.deliver w hcontrol
  · exact hkept w hw

end Invariant.Holds

def Returns (lib : Library) (p : Place) (s : State) (o : Outcome) : Prop :=
  Machine.Returns lib { control := .enter p, state := s } o

theorem Returns.evaluates {lib : Library} {p : Place} {s : State} {o : Outcome}
    (h : Returns lib p s o) : Evaluates lib p s o :=
  h.ends

theorem Legible.returns {lib : Library} {p : Place} {s : State} {o : Outcome} (hp : Legible lib p s)
    (h : Evaluates lib p s o) : Returns lib p s o where
  ends := h
  goes_on := by
    rintro m hm ⟨q, hq, hendless⟩
    exact hendless ⟨_, hp m q hm hq.shows⟩

end ReversePolish
