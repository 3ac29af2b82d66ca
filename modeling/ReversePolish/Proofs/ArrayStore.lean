import ReversePolish.Proofs.HeapDiscipline
import ReversePolish.Proofs.Requests

namespace ReversePolish

def Value.toBuffer : Value → Except Cause Nat
  | .array id => .ok id
  | v => .error (.notAnArray v.kind)

inductive Stores (lib : Library) (array index value : Place) (s : State) :
    List Request → Outcome → Prop
  | no_number {o} : Lacks Value.toNumber lib .store value s o →
      Stores lib array index value s [⟨value, s⟩] o
  | no_integer {x s₁ o} : Gives Value.toNumber lib value s x s₁ →
      Lacks Value.toInteger lib .store index s₁ o →
      Stores lib array index value s [⟨value, s⟩, ⟨index, s₁⟩] o
  | negative {x s₁ i s₂} : Gives Value.toNumber lib value s x s₁ →
      Gives Value.toInteger lib index s₁ i s₂ → i < 0 →
      Stores lib array index value s [⟨value, s⟩, ⟨index, s₁⟩]
        ⟨.error (.of (.negativeIndex i) (some .store)), s₂⟩
  | no_array {x s₁ s₂ o} {i : Nat} : Gives Value.toNumber lib value s x s₁ →
      Gives Value.toInteger lib index s₁ i s₂ → Lacks Value.toBuffer lib .store array s₂ o →
      Stores lib array index value s [⟨value, s⟩, ⟨index, s₁⟩, ⟨array, s₂⟩] o
  | out_of_range {x s₁ s₂ id s₃} {i : Nat} : Gives Value.toNumber lib value s x s₁ →
      Gives Value.toInteger lib index s₁ i s₂ → Gives Value.toBuffer lib array s₂ id s₃ →
      s₃.heap.length id ≤ i →
      Stores lib array index value s [⟨value, s⟩, ⟨index, s₁⟩, ⟨array, s₂⟩]
        ⟨.error (.of (.indexOutOfRange i (s₃.heap.length id)) (some .store)), s₃⟩
  | stored {x s₁ s₂ id s₃} {i : Nat} : Gives Value.toNumber lib value s x s₁ →
      Gives Value.toInteger lib index s₁ i s₂ → Gives Value.toBuffer lib array s₂ id s₃ →
      i < s₃.heap.length id →
      Stores lib array index value s [⟨value, s⟩, ⟨index, s₁⟩, ⟨array, s₂⟩]
        ⟨.ok (.array id), s₃.apply (.store id i x)⟩

structure State.SetAt (id index : Nat) (x : Float) (before after : State) : Prop where
  element : after.heap.get? id index = some x
  others : ∀ other i, (other, i) ≠ (id, index) → after.heap.get? other i = before.heap.get? other i
  length : ∀ other, after.heap.length other = before.heap.length other
  next : after.heap.next = before.heap.next
  scope : after.scope = before.scope
  printer : after.printer = before.printer
  meter : after.meter = before.meter

theorem Heap.get?_set (h : Heap) (id index : Nat) (x : Float) (other i : Nat) :
    (h.set id index x).get? other i =
      if (other, i) = (id, index) ∧ index < h.length id then some x else h.get? other i := by
  rw [get?, buffer_set]
  by_cases hid : id = other
  · subst hid
    rw [if_pos rfl, Array.getElem?_setIfInBounds]
    by_cases hi : index = i
    · subst hi
      rw [if_pos rfl]
      split
      · next hlt => rw [if_pos ⟨rfl, hlt⟩]
      · next hge =>
        rw [if_neg fun hand => hge hand.2, get?, Array.getElem?_eq_none (Nat.le_of_not_lt hge)]
    · simp [hi, Ne.symm hi, get?]
  · rw [if_neg hid, if_neg (by simp [Ne.symm hid]), get?]

theorem State.setAt_apply {s : State} {id index : Nat} (x : Float) (h : index < s.heap.length id) :
    SetAt id index x s (s.apply (.store id index x)) where
  element := by simp [apply, Heap.get?_set, h]
  others other i hne := by rw [apply, Heap.get?_set, if_neg fun hand => hne hand.1]
  length _ := Heap.length_set _ _ _ _ _
  next := Heap.next_set _ _ _ _
  scope := rfl
  printer := rfl
  meter := rfl

theorem Frame.resume_index (lib : Library) (scope : Scope) (h : Heap) (graph array : Nat) (x : Float)
    (v : Value) :
    Frame.resume lib scope h ⟨graph, .store, .index array x⟩ v =
      v.toInteger >>= fun i => if i < 0 then .error (.negativeIndex i)
        else Response.await graph array (.array i.toNat x) := rfl

theorem Frame.resume_array (lib : Library) (scope : Scope) (h : Heap) (graph i : Nat) (x : Float)
    (v : Value) :
    Frame.resume lib scope h ⟨graph, .store, .array i x⟩ v =
      v.toBuffer >>= fun id => if i < h.length id then .ok (.store id i x, .finish (.array id))
        else .error (.indexOutOfRange i (h.length id)) := by
  cases v <;> rfl

namespace Machine

variable {lib : Library} {graph array index value : Nat} {s : State} {rs : List Request}
  {o : Outcome} {x : Float}

theorem asks_array_iff {i : Nat} :
    Asks lib ⟨.enter ⟨graph, array⟩, [⟨graph, .store, .array i x⟩], s⟩ rs o ↔
      rs = [⟨⟨graph, array⟩, s⟩] ∧ (Lacks Value.toBuffer lib .store ⟨graph, array⟩ s o ∨
        ∃ id s', Gives Value.toBuffer lib ⟨graph, array⟩ s id s' ∧
          (s'.heap.length id ≤ i ∧
              o = ⟨.error (.of (.indexOutOfRange i (s'.heap.length id)) (some .store)), s'⟩ ∨
            i < s'.heap.length id ∧ o = ⟨.ok (.array id), s'.apply (.store id i x)⟩)) := by
  rw [asks_take_heap_iff (fun _ => rfl) (by simp) fun scope h v =>
    Frame.resume_array lib scope h graph i x v]
  constructor
  · rintro (⟨h, rfl⟩ | ⟨id, s', rs', hid, h, rfl⟩)
    · exact ⟨rfl, .inl h⟩
    · by_cases hlt : i < s'.heap.length id
      · rw [if_pos hlt] at h
        obtain ⟨rfl, rfl⟩ := h
        exact ⟨rfl, .inr ⟨id, s', hid, .inr ⟨hlt, rfl⟩⟩⟩
      · rw [if_neg hlt] at h
        obtain ⟨rfl, rfl⟩ := h
        exact ⟨rfl, .inr ⟨id, s', hid, .inl ⟨Nat.le_of_not_lt hlt, rfl⟩⟩⟩
  · rintro ⟨rfl, h | ⟨id, s', hid, ⟨hle, rfl⟩ | ⟨hlt, rfl⟩⟩⟩
    · exact .inl ⟨h, rfl⟩
    · exact .inr ⟨id, s', [], hid, by rw [if_neg (Nat.not_lt.2 hle)]; exact ⟨rfl, rfl⟩, rfl⟩
    · exact .inr ⟨id, s', [], hid, by rw [if_pos hlt]; exact ⟨rfl, rfl⟩, rfl⟩

theorem asks_index_iff :
    Asks lib ⟨.enter ⟨graph, index⟩, [⟨graph, .store, .index array x⟩], s⟩ rs o ↔
      rs = [⟨⟨graph, index⟩, s⟩] ∧ (Lacks Value.toInteger lib .store ⟨graph, index⟩ s o ∨
        ∃ i s', Gives Value.toInteger lib ⟨graph, index⟩ s i s' ∧ i < 0 ∧
          o = ⟨.error (.of (.negativeIndex i) (some .store)), s'⟩) ∨
      ∃ (i : Nat) (s' : State) (rs' : List Request),
        Gives Value.toInteger lib ⟨graph, index⟩ s i s' ∧
        Asks lib ⟨.enter ⟨graph, array⟩, [⟨graph, .store, .array i x⟩], s'⟩ rs' o ∧
        rs = ⟨⟨graph, index⟩, s⟩ :: rs' := by
  rw [asks_take_iff (fun _ => rfl) (by simp) fun scope h v =>
    Frame.resume_index lib scope h graph array x v]
  constructor
  · rintro (⟨h, rfl⟩ | ⟨i, s', rs', hi, h, rfl⟩)
    · exact .inl ⟨rfl, .inl h⟩
    · by_cases hneg : i < 0
      · rw [if_pos hneg] at h
        obtain ⟨rfl, rfl⟩ := h
        exact .inl ⟨rfl, .inr ⟨i, s', hi, hneg, rfl⟩⟩
      · obtain ⟨n, rfl⟩ := Int.eq_ofNat_of_zero_le (Int.not_lt.1 hneg)
        rw [if_neg hneg] at h
        exact .inr ⟨n, s', rs', hi, h, rfl⟩
  · rintro (⟨rfl, h | ⟨i, s', hi, hneg, rfl⟩⟩ | ⟨n, s', rs', hi, h, rfl⟩)
    · exact .inl ⟨h, rfl⟩
    · exact .inr ⟨i, s', [], hi, by rw [if_pos hneg]; exact ⟨rfl, rfl⟩, rfl⟩
    · exact .inr ⟨n, s', rs', hi, by rw [if_neg (by omega)]; exact h, rfl⟩

theorem asks_element_iff :
    Asks lib ⟨.enter ⟨graph, value⟩, [⟨graph, .store, .element array index⟩], s⟩ rs o ↔
      Stores lib ⟨graph, array⟩ ⟨graph, index⟩ ⟨graph, value⟩ s rs o := by
  rw [asks_take_iff (fun _ => rfl) (by simp) fun _ _ _ => rfl]
  change _ ∨ (∃ x s₁ rs', _ ∧ Asks lib _ rs' o ∧ _) ↔ _
  simp only [asks_index_iff, asks_array_iff]
  constructor
  · rintro (⟨h, rfl⟩ | ⟨x, s₁, _, hx, ⟨rfl, h | ⟨i, s₂, hi, hneg, rfl⟩⟩ |
      ⟨i, s₂, _, hi, ⟨rfl, h | ⟨id, s₃, hid, ⟨hle, rfl⟩ | ⟨hlt, rfl⟩⟩⟩, rfl⟩, rfl⟩)
    · exact .no_number h
    · exact .no_integer hx h
    · exact .negative hx hi hneg
    · exact .no_array hx hi h
    · exact .out_of_range hx hi hid hle
    · exact .stored hx hi hid hlt
  · intro h
    cases h with
    | no_number h => exact .inl ⟨h, rfl⟩
    | no_integer hx h => exact .inr ⟨_, _, _, hx, .inl ⟨rfl, .inl h⟩, rfl⟩
    | negative hx hi hneg => exact .inr ⟨_, _, _, hx, .inl ⟨rfl, .inr ⟨_, _, hi, hneg, rfl⟩⟩, rfl⟩
    | no_array hx hi h => exact .inr ⟨_, _, _, hx, .inr ⟨_, _, _, hi, ⟨rfl, .inl h⟩, rfl⟩, rfl⟩
    | out_of_range hx hi hid hle =>
      exact .inr ⟨_, _, _, hx, .inr ⟨_, _, _, hi, ⟨rfl, .inr ⟨_, _, hid, .inl ⟨hle, rfl⟩⟩⟩, rfl⟩, rfl⟩
    | stored hx hi hid hlt =>
      exact .inr ⟨_, _, _, hx, .inr ⟨_, _, _, hi, ⟨rfl, .inr ⟨_, _, hid, .inr ⟨hlt, rfl⟩⟩⟩, rfl⟩, rfl⟩

end Machine

section Stores

variable {lib : Library} {array index value : Place} {s s' : State} {rs : List Request} {f : Fault}
  {v : Value}

theorem Lacks.exists_returns {α : Type} {take : Value → Except Cause α} {op : Operation} {p : Place}
    {o : Outcome} (h : Lacks take lib op p s o) : ∃ result, Returns lib p s ⟨result, o.state⟩ := by
  cases h with
  | failed hf => exact ⟨_, hf⟩
  | refused hv _ => exact ⟨_, hv⟩

theorem Gives.exists_returns {α : Type} {take : Value → Except Cause α} {p : Place} {a : α}
    (h : Gives take lib p s a s') : ∃ result, Returns lib p s ⟨result, s'⟩ := by
  obtain ⟨v, hv, _⟩ := h
  exact ⟨_, hv⟩

theorem Stores.exists_getLast? (h : Stores lib array index value s rs ⟨.error f, s'⟩) :
    ∃ r, rs.getLast? = some r ∧ ∃ result, Returns lib r.place r.state ⟨result, s'⟩ := by
  generalize ho : Outcome.mk (.error f) s' = o at h
  cases h with
  | no_number h | no_integer _ h | no_array _ _ h =>
    subst ho
    exact ⟨_, rfl, h.exists_returns⟩
  | negative _ h _ | out_of_range _ _ h _ =>
    cases ho
    exact ⟨_, rfl, h.exists_returns⟩
  | stored => cases ho

theorem Stores.exists_setAt (h : Stores lib array index value s rs ⟨.ok v, s'⟩) :
    ∃ x s₁ s₂ id s₃, ∃ i : Nat, Gives Value.toNumber lib value s x s₁ ∧
      Gives Value.toInteger lib index s₁ i s₂ ∧ Gives Value.toBuffer lib array s₂ id s₃ ∧
      i < s₃.heap.length id ∧ rs = [⟨value, s⟩, ⟨index, s₁⟩, ⟨array, s₂⟩] ∧ v = .array id ∧
      State.SetAt id i x s₃ s' := by
  generalize ho : Outcome.mk (.ok v) s' = o at h
  cases h with
  | no_number h | no_integer _ h | no_array _ _ h =>
    subst ho
    cases h
  | negative | out_of_range => cases ho
  | stored hx hi hid hlt =>
    cases ho
    exact ⟨_, _, _, _, _, _, hx, hi, hid, hlt, rfl, rfl, State.setAt_apply _ hlt⟩

end Stores

theorem asks_store_iff {lib : Library} {p : Place} {array index value : Nat} {s : State}
    {rs : List Request} {o : Outcome}
    (hp : lib.node? p = some (.apply .store [array, index, value])) (hs : s.meter.budget = none) :
    Asks lib p s rs o ↔
      Stores lib ⟨p.graph, array⟩ ⟨p.graph, index⟩ ⟨p.graph, value⟩ s.tick rs o := by
  have hfree : ¬ Machine.Hangs lib ⟨.enter p, [], s⟩ := Machine.not_hangs_enter_of_none hp rfl
  exact (Machine.asks_operation_iff hp hfree hs).trans Machine.asks_element_iff

theorem returns_store_iff {lib : Library} {p : Place} {array index value : Nat} {s : State} {o : Outcome}
    (hp : lib.node? p = some (.apply .store [array, index, value])) (hs : s.meter.budget = none) :
    Returns lib p s o ↔
      ∃ rs, Stores lib ⟨p.graph, array⟩ ⟨p.graph, index⟩ ⟨p.graph, value⟩ s.tick rs o := by
  simp only [← asks_store_iff hp hs]
  exact ⟨Machine.Asks.of_returns, fun ⟨_, h⟩ => h.returns⟩

/-- To store a number sets one element of one buffer, whatever names that is bound to, or changes
nothing. The number, the index and the array are evaluated and checked in this order, up to the
first failure. -/
theorem stores_set_one_element (lib : Library) (p : Place) (array index value : Nat) (s : State)
    (hp : lib.node? p = some (.apply .store [array, index, value])) (hs : s.meter.budget = none) :
    (∀ o, Returns lib p s o ↔
      ∃ rs, Stores lib ⟨p.graph, array⟩ ⟨p.graph, index⟩ ⟨p.graph, value⟩ s.tick rs o) ∧
    (∀ rs o, Asks lib p s rs o ↔
      Stores lib ⟨p.graph, array⟩ ⟨p.graph, index⟩ ⟨p.graph, value⟩ s.tick rs o) ∧
    ((∃ v s', Returns lib p s ⟨.ok v, s'⟩) ↔
      ∃ x s₁ s₂ id s₃, ∃ i : Nat, Gives Value.toNumber lib ⟨p.graph, value⟩ s.tick x s₁ ∧
        Gives Value.toInteger lib ⟨p.graph, index⟩ s₁ i s₂ ∧
        Gives Value.toBuffer lib ⟨p.graph, array⟩ s₂ id s₃ ∧ i < s₃.heap.length id) ∧
    (∀ rs v s', Asks lib p s rs ⟨.ok v, s'⟩ → ∃ x s₁ s₂ id s₃, ∃ i : Nat,
      Gives Value.toNumber lib ⟨p.graph, value⟩ s.tick x s₁ ∧
      Gives Value.toInteger lib ⟨p.graph, index⟩ s₁ i s₂ ∧
      Gives Value.toBuffer lib ⟨p.graph, array⟩ s₂ id s₃ ∧ i < s₃.heap.length id ∧
      rs = [⟨⟨p.graph, value⟩, s.tick⟩, ⟨⟨p.graph, index⟩, s₁⟩, ⟨⟨p.graph, array⟩, s₂⟩] ∧
      v = .array id ∧ s₃.SetAt id i x s' ∧
      ∀ name, s₃.scope.find? name = some (.array id) →
        s'.scope.find? name = some (.array id) ∧ s'.heap.get? id i = some x) ∧
    ∀ rs f s', Asks lib p s rs ⟨.error f, s'⟩ →
      ∃ r, rs.getLast? = some r ∧ ∃ result, Returns lib r.place r.state ⟨result, s'⟩ := by
  refine ⟨fun o => returns_store_iff hp hs, fun rs o => asks_store_iff hp hs, ⟨?_, ?_⟩, ?_, ?_⟩
  · rintro ⟨v, s', h⟩
    obtain ⟨rs, hstores⟩ := (returns_store_iff hp hs).1 h
    obtain ⟨x, s₁, s₂, id, s₃, i, hx, hi, hid, hlt, _⟩ := hstores.exists_setAt
    exact ⟨x, s₁, s₂, id, s₃, i, hx, hi, hid, hlt⟩
  · rintro ⟨x, s₁, s₂, id, s₃, i, hx, hi, hid, hlt⟩
    exact ⟨_, _, (returns_store_iff hp hs).2 ⟨_, .stored hx hi hid hlt⟩⟩
  · intro rs v s' h
    obtain ⟨x, s₁, s₂, id, s₃, i, hx, hi, hid, hlt, hrs, rfl, hset⟩ :=
      ((asks_store_iff hp hs).1 h).exists_setAt
    refine ⟨x, s₁, s₂, id, s₃, i, hx, hi, hid, hlt, hrs, rfl, hset, fun name hname => ⟨?_, hset.element⟩⟩
    rw [hset.scope, hname]
  · intro rs f s' h
    exact ((asks_store_iff hp hs).1 h).exists_getLast?

theorem stores_set_one_element_rebound :
    ∃ (lib : Library) (s s₃ s' : State) (rs : List Request),
      Program.read .standard "7 1 c a setq prog2 a setv" = .ok ⟨lib.graph 0, 7⟩ ∧
      s.scope.find? "a" = some (.array 0) ∧ s.scope.find? "c" = some (.array 1) ∧
      Asks lib ⟨0, 7⟩ s rs ⟨.ok (.array 1), s'⟩ ∧
      rs.map (·.place) = [⟨0, 0⟩, ⟨0, 5⟩, ⟨0, 6⟩] ∧ s₃.SetAt 1 1 7.0 s' ∧
      s₃.heap.buffer 0 = #[0.0, 0.0] ∧
      s'.scope.find? "a" = some (.array 1) ∧ s'.heap.get? 1 1 = some 7.0 := by
  let g : Graph := #[.num 7.0, .num 1.0, .var "c", .var "a", .apply .assign [3, 2],
    .apply .prog2 [4, 1], .var "a", .apply .store [6, 5, 0]]
  let lib : Library := Library.add {} g
  let s : State :=
    { scope := (Scope.bind {} "a" (.array 0)).bind "c" (.array 1),
      heap := ⟨#[#[0.0, 0.0], #[0.0, 0.0]]⟩ }
  have hread : Program.read .standard "7 1 c a setq prog2 a setv" = .ok ⟨g, 7⟩ := by decide +kernel
  have hplace : ∀ id, lib.Descends ⟨0, id⟩ :=
    Library.descends_next {} (Program.wellFormed_of_read hread).1.descending
  have hscope : s.tick.tick.scope.Descends lib :=
    (Scope.all_empty.bind "a" trivial).bind "c" trivial
  have hx : Gives Value.toNumber lib ⟨0, 0⟩ s.tick 7.0 s.tick.tick := ⟨_, returns_num rfl rfl, rfl⟩
  have hrun : (evaluate 20 lib ⟨0, 5⟩ s.tick.tick).map (fun o =>
      (o.result, o.state.scope.find? "a", o.state.heap.length 1, o.state.meter.budget,
        o.state.heap.buffer 0)) =
      some (.ok (.number 1.0), some (.array 1), 2, none, #[0.0, 0.0]) := by decide +kernel
  obtain ⟨⟨result, s₂⟩, ho, hvalues⟩ := Option.map_eq_some_iff.1 hrun
  simp only [Prod.mk.injEq] at hvalues
  obtain ⟨rfl, ha, hlen, hbudget, hbuffer⟩ := hvalues
  have hi : Gives Value.toInteger lib ⟨0, 5⟩ s.tick.tick (1 : Nat) s₂ :=
    ⟨.number 1.0, (Library.legible (hplace 5) hscope).returns ⟨20, ho⟩, by decide +kernel⟩
  have hid : Gives Value.toBuffer lib ⟨0, 6⟩ s₂ 1 s₂.tick := ⟨_, returns_var rfl ha hbudget, rfl⟩
  have hlt : 1 < s₂.tick.heap.length 1 := by
    change 1 < s₂.heap.length 1
    omega
  obtain ⟨_, hasks, _, hset, _⟩ := stores_set_one_element lib ⟨0, 7⟩ 6 5 0 s rfl rfl
  have hstore := (hasks _ _).2 (.stored hx hi hid hlt)
  obtain ⟨x, s₁', s₂', id, s₃, i, hx', hi', hid', _, hrs, _, hset, halias⟩ := hset _ _ _ hstore
  obtain ⟨rfl, rfl⟩ := hx.unique hx'
  obtain ⟨he, rfl⟩ := hi.unique hi'
  obtain ⟨rfl, rfl⟩ := hid.unique hid'
  obtain rfl : 1 = i := by omega
  exact ⟨lib, s, s₂.tick, _, _, hread, by simp [s], by simp [s], hstore, rfl, hset, hbuffer,
    halias "a" ha⟩

end ReversePolish
