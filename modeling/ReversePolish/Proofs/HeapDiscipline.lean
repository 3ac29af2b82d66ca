import ReversePolish.Proofs.Provenance

namespace ReversePolish

@[simp] theorem Heap.next_set (h : Heap) (id index : Nat) (x : Float) :
    (h.set id index x).next = h.next := by
  simp [set, next]

@[simp] theorem Heap.next_addZeros (h : Heap) (n : Nat) : (h.addZeros n).next = h.next + 1 :=
  h.next_add _

theorem Heap.length_of_next_le {h : Heap} {id : Nat} (hid : h.next ≤ id) : h.length id = 0 := by
  have hnone : h.buffers[id]? = none := Array.getElem?_eq_none hid
  simp [length, buffer, hnone]

theorem Heap.length_addZeros (h : Heap) (n id : Nat) :
    (h.addZeros n).length id = if id = h.next then n else h.length id := by
  rw [addZeros, length, buffer_add]
  split
  · exact Array.size_replicate
  · rfl

/-- Of a heap and a later one: the buffers that are not owned have been left alone. -/
structure Heap.Later (owned : Nat → Prop) (h₀ h : Heap) : Prop where
  next_le : h₀.next ≤ h.next
  length : ∀ id < h₀.next, h.length id = h₀.length id
  buffer : ∀ id < h₀.next, ¬ owned id → h.buffer id = h₀.buffer id
  fresh : ∀ id, h₀.next ≤ id → h.length id ≤ maxLength

def Value.Granted (owned : Nat → Prop) (h₀ h : Heap) : Value → Prop
  | .array id => owned id ∨ h₀.next ≤ id ∧ id < h.next
  | _ => True

namespace Heap.Later

variable {owned : Nat → Prop} {h₀ h : Heap}

theorem refl (owned : Nat → Prop) (h : Heap) : Later owned h h where
  next_le := Nat.le_refl _
  length _ _ := rfl
  buffer _ _ _ := rfl
  fresh id hid := by
    rw [length_of_next_le hid]
    exact Nat.zero_le _

theorem addZeros (hl : Later owned h₀ h) {n : Nat} (hn : n ≤ maxLength) :
    Later owned h₀ (h.addZeros n) where
  next_le := by
    rw [next_addZeros]
    exact Nat.le_succ_of_le hl.next_le
  length id hid := by
    have hne : id ≠ h.next := Nat.ne_of_lt (Nat.lt_of_lt_of_le hid hl.next_le)
    rw [length_addZeros, if_neg hne, hl.length id hid]
  buffer id hid ho := by
    have hne : id ≠ h.next := Nat.ne_of_lt (Nat.lt_of_lt_of_le hid hl.next_le)
    rw [Heap.addZeros, buffer_add, if_neg hne, hl.buffer id hid ho]
  fresh id hid := by
    rw [length_addZeros]
    split
    · exact hn
    · exact hl.fresh id hid

theorem set (hl : Later owned h₀ h) {id : Nat} (hid : Value.Granted owned h₀ h (.array id))
    (index : Nat) (x : Float) : Later owned h₀ (h.set id index x) where
  next_le := by
    rw [next_set]
    exact hl.next_le
  length other ho := by
    rw [length_set]
    exact hl.length other ho
  buffer other ho hfree := by
    have hne : id ≠ other := by
      rintro rfl
      rcases hid with howned | ⟨hnew, _⟩
      · exact hfree howned
      · omega
    rw [buffer_set, if_neg hne]
    exact hl.buffer other ho hfree
  fresh other ho := by
    rw [length_set]
    exact hl.fresh other ho

end Heap.Later

namespace HeapDiscipline

variable {owned : Nat → Prop} {h₀ : Heap}

structure Keeps (owned : Nat → Prop) (h₀ : Heap) (s : State) : Prop where
  heap : h₀.Later owned s.heap
  scope : s.scope.All (Value.Granted owned h₀ s.heap)

theorem granted_addZeros {h : Heap} {v : Value} (n : Nat) (hv : v.Granted owned h₀ h) :
    v.Granted owned h₀ (h.addZeros n) := by
  cases v with
  | array id =>
    rcases hv with ho | ⟨hge, hlt⟩
    · exact .inl ho
    · exact .inr ⟨hge, by rw [Heap.next_addZeros]; omega⟩
  | _ => trivial

theorem granted_set {h : Heap} {v : Value} (id index : Nat) (x : Float)
    (hv : v.Granted owned h₀ h) : v.Granted owned h₀ (h.set id index x) := by
  cases v with
  | array other => rwa [Value.Granted, Heap.next_set]
  | _ => trivial

theorem granted_next {h : Heap} (hl : h₀.Later owned h) (n : Nat) :
    Value.Granted owned h₀ (h.addZeros n) (.array h.next) :=
  .inr ⟨hl.next_le, by simp⟩

def invariant (lib : Library) (owned : Nat → Prop) (h₀ : Heap) : Invariant lib where
  place _ := True
  value := Value.Granted owned h₀
  state := Keeps owned h₀
  operand _ _ _ := trivial
  callee _ := trivial
  scalar {_ v} hv := by
    cases v with
    | array _ => exact hv.elim
    | _ => trivial
  nop := trivial
  fresh n hs := granted_next hs.heap n
  subroutine _ _ := trivial
  whileBody _ _ := trivial
  forBody _ _ := trivial
  value_addZeros n hv := granted_addZeros n hv
  value_set id index x hv := granted_set id index x hv
  lookup hs _ _ hv := hs.scope _ _ hv
  tick hs := ⟨hs.heap, hs.scope⟩
  bind hs _ hv := ⟨hs.heap, hs.scope.bind _ hv⟩
  bindZeros {_ name n} hs _ hn :=
    ⟨hs.heap.addZeros hn,
      (hs.scope.imp fun _ hv => granted_addZeros n hv).bind name (granted_next hs.heap n)⟩
  store {_ id index} x hs hv _ :=
    ⟨hs.heap.set hv index x, hs.scope.imp fun _ hv => granted_set id index x hv⟩
  println hs _ := ⟨hs.heap, hs.scope⟩

end HeapDiscipline

theorem State.next_apply_of_immediate {s : State} {e : Effect} (h : e.Immediate) :
    (s.apply e).heap.next = s.heap.next := by
  cases e with
  | none | bind => rfl
  | _ => exact h.elim

theorem State.next_apply_of_mayDo {s : State} {pending : Pending} {e : Effect}
    (h : pending.MayDo e) :
    (s.apply e).heap.next = s.heap.next ∨
      (∃ target, pending = .length target) ∧ (s.apply e).heap.next = s.heap.next + 1 := by
  cases e with
  | none | bind | println => exact .inl rfl
  | store id index x => exact .inl (Heap.next_set _ _ _ _)
  | bindZeros name n =>
    cases pending with
    | length target => exact .inr ⟨⟨target, rfl⟩, Heap.next_addZeros _ _⟩
    | _ => exact h.elim

namespace Machine

variable {lib : Library} {m start : Machine} {frames : List Frame} {s : State} {o : Outcome}

inductive Allocates (lib : Library) : Machine → Nat → Prop
  | intro {v graph target frames s m'} :
      step lib ⟨.deliver v, ⟨graph, .allocArray, .length target⟩ :: frames, s⟩ = .next m' →
      m'.state.heap.next = s.heap.next + 1 →
      Allocates lib ⟨.deliver v, ⟨graph, .allocArray, .length target⟩ :: frames, s⟩ s.heap.next

def KeepsNext (n : Nat) : Turn → Prop :=
  Turn.All (fun m => m.state.heap.next = n) fun o => o.state.heap.next = n

theorem settle_ok (graph : Nat) (op : Operation) (frames : List Frame) (s : State) (e : Effect)
    (move : Move) : ∃ m, settle graph op frames s (.ok (e, move)) = .next m ∧ m.state = s.apply e := by
  cases move with
  | await place pending => exact ⟨_, rfl, rfl⟩
  | finish v => exact ⟨_, rfl, rfl⟩

theorem keepsNext_settle {graph : Nat} {op : Operation} {r : Response}
    (hr : r.Does fun e => (s.apply e).heap.next = s.heap.next) :
    KeepsNext s.heap.next (settle graph op frames s r) := by
  match r with
  | .ok (effect, .await place pending) => exact hr
  | .ok (effect, .finish v) => exact hr
  | .error cause => rfl

theorem keepsNext_visit (p : Place) : KeepsNext s.heap.next (visit lib p frames s) := by
  refine visit_cases (fun _ => rfl) (fun _ => rfl) (fun _ _ _ _ => rfl) (fun _ => rfl) ?_
  intro op operands _
  exact keepsNext_settle (Frame.does_enter.imp fun _ => State.next_apply_of_immediate)

theorem allocates_step {I : Invariant lib} (hm : I.Holds m) :
    KeepsNext m.state.heap.next (m.step lib) ∨
      m.Allocates lib m.state.heap.next ∧
        ∃ m', m.step lib = .next m' ∧ m'.state.heap.next = m.state.heap.next + 1 := by
  obtain ⟨control, frames, s⟩ := m
  cases control with
  | enter p =>
    left
    simp only [step]
    split
    · rfl
    · exact keepsNext_visit (s := s.tick) p
  | deliver v =>
    cases frames with
    | nil => exact .inl rfl
    | cons f frames =>
      obtain ⟨graph, op, pending⟩ := f
      have hdoes := @Frame.does_resume lib s.scope s.heap ⟨graph, op, pending⟩ v
      cases hr : Frame.resume lib s.scope s.heap ⟨graph, op, pending⟩ v with
      | error cause =>
        left
        simp only [step, hr]
        rfl
      | ok r =>
        obtain ⟨effect, move⟩ := r
        rw [hr] at hdoes
        obtain hsame | ⟨⟨target, rfl⟩, hmore⟩ := State.next_apply_of_mayDo (s := s) hdoes
        · left
          simp only [step, hr]
          exact keepsNext_settle hsame
        · -- Only an allocation waits for a length.
          obtain ⟨id, operands, _, _, hsuits, _⟩ := hm.frames _ List.mem_cons_self
          obtain rfl : op = .allocArray := by cases hsuits; rfl
          obtain ⟨m', hs, hstate⟩ := settle_ok graph .allocArray frames s effect move
          have hstep : step lib ⟨.deliver v, ⟨graph, .allocArray, .length target⟩ :: frames, s⟩ =
              .next m' := by
            simp only [step, hr, hs]
          rw [← hstate] at hmore
          exact .inr ⟨.intro hstep hmore, m', hstep, hmore⟩

theorem exists_allocates {I : Invariant lib} {h₀ : Heap} (hstart : I.Holds start)
    (hnext : start.state.heap.next = h₀.next) (h : Ends lib start o) :
    ∀ id, h₀.next ≤ id → id < o.state.heap.next →
      ∃ m, Reaches lib start m ∧ m.Allocates lib id := by
  let Explained (n : Nat) : Prop := ∀ id, h₀.next ≤ id → id < n →
    ∃ m, Reaches lib start m ∧ m.Allocates lib id
  have hstep : ∀ m, Reaches lib start m ∧ Explained m.state.heap.next →
      (m.step lib).All (fun m => Reaches lib start m ∧ Explained m.state.heap.next)
        fun o => Explained o.state.heap.next := by
    rintro m ⟨hreach, hm⟩
    obtain hkeeps | ⟨halloc, m', hs, hmore⟩ := allocates_step (hstart.reaches hreach)
    · match hs : m.step lib with
      | .next m' =>
        rw [hs] at hkeeps
        have hsame : m'.state.heap.next = m.state.heap.next := hkeeps
        exact ⟨.tail hreach hs, by rw [hsame]; exact hm⟩
      | .done o =>
        rw [hs] at hkeeps
        have hsame : o.state.heap.next = m.state.heap.next := hkeeps
        change Explained o.state.heap.next
        rw [hsame]
        exact hm
    · rw [hs]
      refine ⟨.tail hreach hs, ?_⟩
      rw [hmore]
      intro id hge hlt
      by_cases he : id = m.state.heap.next
      · exact ⟨m, hreach, he ▸ halloc⟩
      · exact hm id hge (by omega)
  refine run_invariant hstep h ⟨.refl, ?_⟩
  rw [hnext]
  intro id hge hlt
  omega

end Machine

/-- Buffers keep their lengths and, unless they are bound at the beginning, what they hold; those
that are made on the way are not too long; and the arrays that an evaluation leaves were bound at
the beginning or made by an allocation on the way. -/
theorem buffers_are_reached_through_bindings (lib : Library) (root : Place) (s : State) (o : Outcome)
    (h : Evaluates lib root s o) :
    (∀ id < s.heap.next, id < o.state.heap.next ∧ o.state.heap.length id = s.heap.length id) ∧
    (∀ id < s.heap.next, (∀ name, s.scope.find? name ≠ some (.array id)) →
      o.state.heap.buffer id = s.heap.buffer id) ∧
    (∀ id, s.heap.next ≤ id → id < o.state.heap.next →
      o.state.heap.length id ≤ Heap.maxLength) ∧
    ∀ id, o.Leaves (.array id) →
      (∃ name, s.scope.find? name = some (.array id)) ∨
        s.heap.next ≤ id ∧ id < o.state.heap.next ∧
          ∃ m, Machine.Reaches lib { control := .enter root, state := s } m ∧
            m.Allocates lib id := by
  let owned (id : Nat) : Prop := ∃ name, s.scope.find? name = some (.array id)
  let I : Invariant lib := HeapDiscipline.invariant lib owned s.heap
  have hscope : s.scope.All (Value.Granted owned s.heap s.heap) := by
    intro name v hv
    cases v with
    | array id => exact .inl ⟨name, hv⟩
    | _ => trivial
  have hs : I.state s := ⟨.refl owned s.heap, hscope⟩
  obtain ⟨hvalue, _, hheap, hleft⟩ := I.ending trivial hs h
  refine ⟨?_, ?_, fun id hge _ => hheap.fresh id hge, ?_⟩
  · intro id hid
    exact ⟨Nat.lt_of_lt_of_le hid hheap.next_le, hheap.length id hid⟩
  · intro id hid hfree
    exact hheap.buffer id hid fun ⟨name, hbound⟩ => hfree name hbound
  · intro id hleaves
    have hgranted : Value.Granted owned s.heap o.state.heap (.array id) := by
      cases hleaves with
      | result hr => exact hvalue _ hr
      | bound hb => exact hleft _ _ hb
    obtain ho | ⟨hge, hlt⟩ := hgranted
    · exact .inl ho
    · have hstart : I.Holds { control := .enter root, state := s } := Invariant.holds_start trivial hs
      exact .inr ⟨hge, hlt, Machine.exists_allocates hstart rfl h.ends id hge hlt⟩

theorem buffers_are_reached_through_bindings_store :
    ∃ p o, Program.read .standard "7 0 a setv 2 b valloc prog2" = .ok p ∧
      Evaluates (Library.add {} p.graph) ⟨0, p.root⟩
        ⟨Scope.bind {} "a" (.array 0), ⟨#[#[0], #[5]]⟩, {}, .silent⟩ o ∧
      o.state.heap.length 0 = 1 ∧ o.state.heap.buffer 1 = #[5] ∧ o.Leaves (.array 2) ∧
      ∃ m, Machine.Reaches (Library.add {} p.graph)
          ⟨.enter ⟨0, p.root⟩, [], ⟨Scope.bind {} "a" (.array 0), ⟨#[#[0], #[5]]⟩, {}, .silent⟩⟩ m ∧
        m.Allocates (Library.add {} p.graph) 2 := by
  let lib : Library := ⟨#[#[.num 7, .num 0, .var "a", .apply .store [2, 1, 0], .num 2, .var "b",
    .apply .allocArray [5, 4], .apply .prog2 [6, 3]]]⟩
  have hread : Program.read .standard "7 0 a setv 2 b valloc prog2" = .ok ⟨lib.graph 0, 7⟩ := rfl
  let s : State := ⟨Scope.bind {} "a" (.array 0), ⟨#[#[0], #[5]]⟩, {}, .silent⟩
  have hrun : (evaluate 20 lib ⟨0, 7⟩ s).bind (·.state.scope.find? "b") = some (.array 2) := by
    decide +kernel
  obtain ⟨o, ho, hb⟩ := Option.bind_eq_some_iff.1 hrun
  have hfree : ∀ id, id ≠ 0 → ∀ name, s.scope.find? name ≠ some (.array id) := by
    intro id hid name
    simp only [s, Scope.find?_bind, Scope.find?_empty]
    split <;> simp [eq_comm, hid]
  obtain ⟨hlength, hbuffer, _, hleft⟩ :=
    buffers_are_reached_through_bindings lib ⟨0, 7⟩ s o ⟨20, ho⟩
  have hb : o.Leaves (.array 2) := .bound hb
  obtain ⟨name, hbound⟩ | ⟨_, _, hmade⟩ := hleft 2 hb
  · exact absurd hbound (hfree 2 (by decide) name)
  · exact ⟨_, o, hread, ⟨20, ho⟩, (hlength 0 (by decide)).2,
      hbuffer 1 (by decide) (hfree 1 (by decide)), hb, hmade⟩

end ReversePolish
