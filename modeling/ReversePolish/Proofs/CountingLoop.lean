import Mathlib.Data.Int.Range
import ReversePolish.Proofs.IntegerCoercion
import ReversePolish.Proofs.Requests

namespace ReversePolish

def State.atIndex (s : State) (name : String) (i : Int) : State :=
  s.apply (.bind name (.number (Number.ofInteger i)))

/-- The passes for these integers one after the other, up to the first that fails. -/
inductive Passes (lib : Library) (name : String) (body : Place) :
    Option Value → List Int → State → List Request → Outcome → Prop
  | done (last s) : Passes lib name body last [] s [] ⟨.ok (last.getD (.deferred .loopBody body)), s⟩
  | failed {last i is s f s'} : Returns lib body (s.atIndex name i) ⟨.error f, s'⟩ →
      Passes lib name body last (i :: is) s [⟨body, s.atIndex name i⟩]
        ⟨.error (f.within .forLoop), s'⟩
  | passed {last i is s v s' rs o} : Returns lib body (s.atIndex name i) ⟨.ok v, s'⟩ →
      Passes lib name body (some v) is s' rs o →
      Passes lib name body last (i :: is) s (⟨body, s.atIndex name i⟩ :: rs) o

inductive Counts (lib : Library) (name : String) (start stop body : Place) (s : State) :
    List Request → Outcome → Prop
  | no_start {o} : Lacks Value.toInteger lib .forLoop start s o →
      Counts lib name start stop body s [⟨start, s⟩] o
  | no_stop {a s₁ o} : Gives Value.toInteger lib start s a s₁ →
      Lacks Value.toInteger lib .forLoop stop s₁ o →
      Counts lib name start stop body s [⟨start, s⟩, ⟨stop, s₁⟩] o
  | passes {a s₁ b s₂ rs o} : Gives Value.toInteger lib start s a s₁ →
      Gives Value.toInteger lib stop s₁ b s₂ →
      Passes lib name body none (Int.range a b) s₂ rs o →
      Counts lib name start stop body s (⟨start, s⟩ :: ⟨stop, s₁⟩ :: rs) o

section Range

variable {a b : Int}

theorem range_of_le (h : b ≤ a) : Int.range a b = [] := by
  rw [Int.range, Int.toNat_of_nonpos (by omega)]
  rfl

theorem range_of_lt (h : a < b) : Int.range a b = a :: Int.range (a + 1) b := by
  have hlen : (b - a).toNat = (b - (a + 1)).toNat + 1 := by omega
  rw [Int.range, Int.range, hlen, List.range_succ_eq_map]
  simp only [List.map_cons, List.map_map, List.cons.injEq]
  refine ⟨by simp, List.map_congr_left fun n _ => ?_⟩
  simp only [Function.comp_apply, Nat.succ_eq_add_one]
  omega

theorem length_range (a b : Int) : (Int.range a b).length = (b - a).toNat := by
  simp [Int.range]

end Range

namespace Passes

variable {lib : Library} {name : String} {body : Place} {last : Option Value} {is : List Int}
  {s s' : State} {rs : List Request} {v : Value} {o : Outcome}

theorem map_place (h : Passes lib name body last is s rs ⟨.ok v, s'⟩) :
    rs.map (·.place) = List.replicate is.length body := by
  generalize ho : Outcome.mk (.ok v) s' = o at h
  induction h with
  | done => rfl
  | failed => cases ho
  | passed _ _ ih => rw [List.map_cons, ih ho, List.length_cons, List.replicate_succ]

theorem getLast? (h : Passes lib name body last is s rs ⟨.ok v, s'⟩) :
    rs = [] ∧ v = last.getD (.deferred .loopBody body) ∧ s' = s ∨
      ∃ r, rs.getLast? = some r ∧ Returns lib body r.state ⟨.ok v, s'⟩ := by
  generalize ho : Outcome.mk (.ok v) s' = o at h
  induction h with
  | done =>
    cases ho
    exact .inl ⟨rfl, rfl, rfl⟩
  | failed => cases ho
  | passed hv _ ih =>
    subst ho
    right
    obtain ⟨rfl, rfl, rfl⟩ | ⟨r, hr, hreturns⟩ := ih rfl
    · exact ⟨_, rfl, hv⟩
    · refine ⟨r, ?_, hreturns⟩
      rw [List.getLast?_cons, hr]
      rfl

theorem nil_iff : Passes lib name body last [] s rs o ↔
    rs = [] ∧ o = ⟨.ok (last.getD (.deferred .loopBody body)), s⟩ := by
  constructor
  · rintro ⟨⟩
    exact ⟨rfl, rfl⟩
  · rintro ⟨rfl, rfl⟩
    exact .done last s

theorem cons_iff {i : Int} : Passes lib name body last (i :: is) s rs o ↔
    (∃ f s', Returns lib body (s.atIndex name i) ⟨.error f, s'⟩ ∧
      rs = [⟨body, s.atIndex name i⟩] ∧ o = ⟨.error (f.within .forLoop), s'⟩) ∨
    ∃ v s' rs', Returns lib body (s.atIndex name i) ⟨.ok v, s'⟩ ∧
      Passes lib name body (some v) is s' rs' o ∧ rs = ⟨body, s.atIndex name i⟩ :: rs' := by
  constructor
  · intro h
    cases h with
    | failed hf => exact .inl ⟨_, _, hf, rfl, rfl⟩
    | passed hv h => exact .inr ⟨_, _, _, hv, h, rfl⟩
  · rintro (⟨f, s', hf, rfl, rfl⟩ | ⟨v, s', rs', hv, h, rfl⟩)
    · exact .failed hf
    · exact .passed hv h

end Passes

namespace Machine

variable {lib : Library} {graph start stop body : Nat} {name : String} {s : State}
  {rs : List Request} {o : Outcome}

theorem follow_count_iff {is : List Int} {next last : Int} {v : Option Value}
    (his : Int.range next last = is) :
    Follow lib graph .forLoop s rs o (Frame.count graph name next last body v) ↔
      Passes lib name ⟨graph, body⟩ v is s rs o := by
  induction is generalizing next v s rs with
  | nil =>
    have hle : ¬ next < last := by
      intro hlt
      rw [range_of_lt hlt] at his
      cases his
    rw [Frame.count, if_neg hle, Passes.nil_iff]
    rfl
  | cons i is ih =>
    have hlt : next < last := by
      by_contra hle
      rw [range_of_le (not_lt.1 hle)] at his
      cases his
    rw [range_of_lt hlt] at his
    obtain ⟨rfl, htail⟩ := List.cons.inj his
    rw [Frame.count, if_pos hlt, Passes.cons_iff]
    simp only [← ih htail]
    exact asks_await_iff (fun _ => rfl) (by simp)

theorem asks_stop_iff {a : Int} :
    Asks lib ⟨.enter ⟨graph, stop⟩, [⟨graph, .forLoop, .stop name a body⟩], s⟩ rs o ↔
      Lacks Value.toInteger lib .forLoop ⟨graph, stop⟩ s o ∧ rs = [⟨⟨graph, stop⟩, s⟩] ∨
      ∃ b s' rs', Gives Value.toInteger lib ⟨graph, stop⟩ s b s' ∧
        Passes lib name ⟨graph, body⟩ none (Int.range a b) s' rs' o ∧
        rs = ⟨⟨graph, stop⟩, s⟩ :: rs' := by
  simp only [← follow_count_iff rfl]
  exact asks_take_iff (fun _ => rfl) (by simp) fun _ _ _ => rfl

theorem asks_start_iff :
    Asks lib ⟨.enter ⟨graph, start⟩, [⟨graph, .forLoop, .start name stop body⟩], s⟩ rs o ↔
      Counts lib name ⟨graph, start⟩ ⟨graph, stop⟩ ⟨graph, body⟩ s rs o := by
  rw [asks_take_iff (fun _ => rfl) (by simp) fun _ _ _ => rfl]
  change _ ∨ (∃ a s₁ rs', _ ∧ Asks lib _ rs' o ∧ _) ↔ _
  simp only [asks_stop_iff]
  constructor
  · rintro (⟨h, rfl⟩ | ⟨a, s₁, _, ha, ⟨h, rfl⟩ | ⟨b, s₂, rs', hb, h, rfl⟩, rfl⟩)
    · exact .no_start h
    · exact .no_stop ha h
    · exact .passes ha hb h
  · rintro (h | ⟨ha, h⟩ | ⟨ha, hb, h⟩)
    · exact .inl ⟨h, rfl⟩
    · exact .inr ⟨_, _, _, ha, .inl ⟨h, rfl⟩, rfl⟩
    · exact .inr ⟨_, _, _, ha, .inr ⟨_, _, _, hb, h, rfl⟩, rfl⟩

end Machine

section Loops

variable {lib : Library} {p : Place} {index start stop body : Nat} {name : String} {s : State}

theorem Frame.enter_forLoop (hindex : lib.node? ⟨p.graph, index⟩ = some (.var name)) :
    Frame.enter lib p.graph .forLoop [index, start, stop, body] =
      Response.await p.graph start (.start name stop body) := by
  simp only [Frame.enter, Library.targetName, hindex]
  rfl

theorem asks_forLoop_iff {rs : List Request} {o : Outcome}
    (hp : lib.node? p = some (.apply .forLoop [index, start, stop, body]))
    (hindex : lib.node? ⟨p.graph, index⟩ = some (.var name)) (hs : s.meter.budget = none) :
    Asks lib p s rs o ↔
      Counts lib name ⟨p.graph, start⟩ ⟨p.graph, stop⟩ ⟨p.graph, body⟩ s.tick rs o := by
  have hfree : ¬ Machine.Hangs lib ⟨.enter p, [], s⟩ := by
    refine Machine.not_hangs_enter hp fun x hx => ?_
    obtain rfl : index = x := Option.some.inj hx
    exact ⟨name, hindex⟩
  rw [Asks, Machine.asks_operation_iff hp hfree hs, Frame.enter_forLoop hindex]
  exact Machine.asks_start_iff

end Loops

theorem Counts.passes_of_ok {lib : Library} {name : String} {start stop body : Place} {a b : Int}
    {s s₁ s₂ s' : State} {rs : List Request} {v : Value}
    (h : Counts lib name start stop body s rs ⟨.ok v, s'⟩)
    (ha : Gives Value.toInteger lib start s a s₁) (hb : Gives Value.toInteger lib stop s₁ b s₂) :
    ∃ rs', rs = ⟨start, s⟩ :: ⟨stop, s₁⟩ :: rs' ∧
      Passes lib name body none (Int.range a b) s₂ rs' ⟨.ok v, s'⟩ := by
  generalize ho : Outcome.mk (.ok v) s' = o at h
  cases h with
  | no_start h =>
    subst ho
    cases h
  | no_stop _ h =>
    subst ho
    cases h
  | passes ha' hb' h =>
    obtain ⟨rfl, rfl⟩ := ha.unique ha'
    obtain ⟨rfl, rfl⟩ := hb.unique hb'
    exact ⟨_, rfl, ho ▸ h⟩

theorem Gives.integer_bounds {lib : Library} {p : Place} {s s' : State} {i : Int}
    (h : Gives Value.toInteger lib p s i s') :
    -9223372036854775808 ≤ i ∧ i < 9223372036854775808 := by
  obtain ⟨v, _, hv⟩ := h
  obtain ⟨_, _, _, hrange⟩ := Value.toInteger_eq_ok_iff.1 hv
  exact inRange_iff.1 hrange

/-- A counting loop evaluates its bounds once each and then its body for each integer between them,
whatever becomes of the variables that it uses. -/
theorem counting_loops_run_their_range (lib : Library) (p : Place) (index start stop body : Nat)
    (name : String) (s : State)
    (hp : lib.node? p = some (.apply .forLoop [index, start, stop, body]))
    (hindex : lib.node? ⟨p.graph, index⟩ = some (.var name)) (hs : s.meter.budget = none) :
    (∀ o, Returns lib p s o ↔
      ∃ rs, Counts lib name ⟨p.graph, start⟩ ⟨p.graph, stop⟩ ⟨p.graph, body⟩ s.tick rs o) ∧
    (∀ rs o, Asks lib p s rs o ↔
      Counts lib name ⟨p.graph, start⟩ ⟨p.graph, stop⟩ ⟨p.graph, body⟩ s.tick rs o) ∧
    ∀ a b s₁ s₂, Gives Value.toInteger lib ⟨p.graph, start⟩ s.tick a s₁ →
      Gives Value.toInteger lib ⟨p.graph, stop⟩ s₁ b s₂ →
      (∀ i ∈ Int.range a b, -9223372036854775808 ≤ i ∧ i + 1 < 9223372036854775808) ∧
      (b ≤ a → Asks lib p s [⟨⟨p.graph, start⟩, s.tick⟩, ⟨⟨p.graph, stop⟩, s₁⟩]
        ⟨.ok (.deferred .loopBody ⟨p.graph, body⟩), s₂⟩) ∧
      ∀ rs v s', Asks lib p s rs ⟨.ok v, s'⟩ →
        rs.map (·.place) = ⟨p.graph, start⟩ :: ⟨p.graph, stop⟩ ::
          List.replicate (b - a).toNat ⟨p.graph, body⟩ ∧
        (a < b → ∃ r, rs.getLast? = some r ∧
          Returns lib ⟨p.graph, body⟩ r.state ⟨.ok v, s'⟩) := by
  have hiff : ∀ rs o, Asks lib p s rs o ↔
      Counts lib name ⟨p.graph, start⟩ ⟨p.graph, stop⟩ ⟨p.graph, body⟩ s.tick rs o :=
    fun _ _ => asks_forLoop_iff hp hindex hs
  refine ⟨fun o => ?_, hiff, fun a b s₁ s₂ ha hb => ⟨?_, ?_, ?_⟩⟩
  · simp only [← hiff]
    exact ⟨Machine.Asks.of_returns, fun ⟨_, h⟩ => h.returns⟩
  · intro i hi
    obtain ⟨hai, hib⟩ := Int.mem_range_iff.1 hi
    have hlower := ha.integer_bounds
    have hupper := hb.integer_bounds
    omega
  · intro hle
    rw [hiff]
    refine .passes ha hb ?_
    rw [range_of_le hle]
    exact .done none s₂
  · intro rs v s' h
    obtain ⟨rs', rfl, hpasses⟩ := ((hiff _ _).1 h).passes_of_ok ha hb
    have hplaces := hpasses.map_place
    rw [length_range] at hplaces
    refine ⟨by rw [List.map_cons, List.map_cons, hplaces], fun hlt => ?_⟩
    obtain ⟨rfl, _⟩ | ⟨r, hr, hreturns⟩ := hpasses.getLast?
    · -- A range that is not empty has a pass for it.
      rw [range_of_lt hlt] at hpasses
      cases hpasses
    · refine ⟨r, ?_, hreturns⟩
      simp [List.getLast?_cons, hr]

theorem counting_loops_run_their_range_rebinding :
    ∃ (lib : Library) (s : State) (rs : List Request) (o : Outcome),
      Program.read .standard "9 i setq 0 n setq t 10 * i + t setq prog3 n 4 i for" =
        .ok ⟨lib.graph 0, 17⟩ ∧
      s.scope.find? "n" = some (.number 7.0) ∧ s.scope.find? "t" = some (.number 0.0) ∧
      Asks lib ⟨0, 17⟩ s rs o ∧
      rs.map (·.place) = [⟨0, 15⟩, ⟨0, 14⟩, ⟨0, 13⟩, ⟨0, 13⟩, ⟨0, 13⟩] ∧
      o.result = .ok (.number 9.0) ∧ o.state.scope.find? "t" = some (.number 456.0) ∧
      o.state.scope.find? "n" = some (.number 0.0) ∧ o.state.scope.find? "i" = some (.number 9.0) := by
  let g : Graph := #[.num 9.0, .var "i", .apply .assign [1, 0], .num 0.0, .var "n",
    .apply .assign [4, 3], .var "t", .num 10.0, .apply .mul [7, 6], .var "i", .apply .add [9, 8],
    .var "t", .apply .assign [11, 10], .apply .prog3 [12, 5, 2], .var "n", .num 4.0, .var "i",
    .apply .forLoop [16, 15, 14, 13]]
  let lib : Library := Library.add {} g
  let s : State := { scope := (Scope.bind {} "t" (.number 0.0)).bind "n" (.number 7.0) }
  have hread : Program.read .standard "9 i setq 0 n setq t 10 * i + t setq prog3 n 4 i for" =
      .ok ⟨g, 17⟩ := by decide +kernel
  have hplace : ∀ id, lib.Descends ⟨0, id⟩ :=
    Library.descends_next {} (Program.wellFormed_of_read hread).1.descending
  have hscope : s.scope.Descends lib := (Scope.all_empty.bind "t" trivial).bind "n" trivial
  have hn : s.scope.find? "n" = some (.number 7.0) := by simp [s]
  have hrun : (evaluate 150 lib ⟨0, 17⟩ s).map (fun o => (o.result, o.state.scope.find? "t",
      o.state.scope.find? "n", o.state.scope.find? "i")) =
      some (.ok (.number 9.0), some (.number 456.0), some (.number 0.0), some (.number 9.0)) := by
    decide +kernel
  obtain ⟨⟨result, s'⟩, ho, hvalues⟩ := Option.map_eq_some_iff.1 hrun
  simp only [Prod.mk.injEq] at hvalues
  obtain ⟨rfl, hbound⟩ := hvalues
  have hstart : Gives Value.toInteger lib ⟨0, 15⟩ s.tick 4 s.tick.tick :=
    ⟨_, returns_num rfl rfl, by decide +kernel⟩
  have hstop : Gives Value.toInteger lib ⟨0, 14⟩ s.tick.tick 7 s.tick.tick.tick :=
    ⟨_, returns_var rfl hn rfl, by decide +kernel⟩
  obtain ⟨hreturns, hasks, hbounds⟩ :=
    counting_loops_run_their_range lib ⟨0, 17⟩ 16 15 14 13 "i" s rfl rfl rfl
  obtain ⟨rs, hrs⟩ := (hreturns _).1 ((Library.legible (hplace 17) hscope).returns ⟨150, ho⟩)
  have hloop := (hasks _ _).2 hrs
  obtain ⟨_, _, hok⟩ := hbounds 4 7 _ _ hstart hstop
  exact ⟨lib, s, rs, _, hread, hn, by simp [s], hloop, (hok _ _ _ hloop).1, rfl, hbound⟩

@[simp] theorem State.find?_atIndex (s : State) (name : String) (i : Int) :
    (s.atIndex name i).scope.find? name = some (.number (Number.ofInteger i)) := by
  simp [atIndex, apply]

theorem Value.toInteger_ofInteger_iff {i : Int} (hlower : -9223372036854775808 ≤ i)
    (hupper : i < 9223372036854775808) :
    (Value.number (Number.ofInteger i)).toInteger = .ok i ↔ Number.Exact i := by
  rw [← Number.toInteger?_ofInteger_eq_iff (by omega), toInteger_eq_ok_iff]
  simp [inRange_iff, hlower, hupper]

theorem Frame.count_eq_await {graph body : Nat} {name : String} {next last : Int} {v : Option Value}
    {effect : Effect} {q : Place} {pending : Pending}
    (h : Frame.count graph name next last body v = .ok (effect, .await q pending)) :
    next < last ∧ effect = .bind name (.number (Number.ofInteger next)) ∧ q = ⟨graph, body⟩ ∧
      pending = .count name (next + 1) last body := by
  rw [Frame.count] at h
  split at h
  · next hlt =>
    cases h
    exact ⟨hlt, rfl, rfl, rfl⟩
  · cases h

namespace Machine

variable {lib : Library} {p : Place} {graph index start stop body fuel k : Nat} {name : String}
  {s s₁ s₂ : State} {r : Request} {a b : Int}

theorem requests_count (hlt : a < b)
    (h : (requests lib fuel ⟨.enter ⟨graph, body⟩, [⟨graph, .forLoop, .count name (a + 1) b body⟩],
      s.atIndex name a⟩)[k]? = some r) :
    r.place = ⟨graph, body⟩ ∧ a + k < b ∧ ∃ t, r.state = State.atIndex t name (a + k) := by
  induction k generalizing a s fuel with
  | zero =>
    obtain rfl := requests_enter_zero h
    exact ⟨rfl, by simpa using hlt, s, by simp⟩
  | succ k ih =>
    obtain ⟨v, s', effect, q, pending, n, _, hresume, h⟩ := requests_enter_succ h
    obtain ⟨hlt, rfl, rfl, rfl⟩ := Frame.count_eq_await hresume
    have hk : a + ((k + 1 : Nat) : Int) = a + 1 + k := by omega
    rw [hk]
    exact ih hlt h

theorem requests_forLoop (hp : lib.node? p = some (.apply .forLoop [index, start, stop, body]))
    (hindex : lib.node? ⟨p.graph, index⟩ = some (.var name))
    (ha : Gives Value.toInteger lib ⟨p.graph, start⟩ s.tick a s₁)
    (hb : Gives Value.toInteger lib ⟨p.graph, stop⟩ s₁ b s₂)
    (h : (requests lib fuel ⟨.enter p, [], s⟩)[k + 2]? = some r) :
    r.place = ⟨p.graph, body⟩ ∧ a + k < b ∧ ∃ t, r.state = State.atIndex t name (a + k) := by
  obtain ⟨v, hv, ha⟩ := ha
  obtain ⟨w, hw, hb⟩ := hb
  obtain ⟨_, _, _, n, henter, h⟩ := requests_operation hp h
  rw [Frame.enter_forLoop hindex] at henter
  cases henter
  obtain ⟨v', _, _, _, _, n, hv', hstart, h⟩ := requests_enter_succ h
  cases hv.ends.unique hv'
  simp only [Frame.resume, ha] at hstart
  cases hstart
  obtain ⟨w', _, _, _, _, n, hw', hstop, h⟩ := requests_enter_succ h
  cases hw.ends.unique hw'
  simp only [Frame.resume, hb] at hstop
  obtain ⟨hlt, rfl, rfl, rfl⟩ := Frame.count_eq_await hstop
  exact requests_count hlt h

theorem index_of_requests (hp : lib.node? p = some (.apply .forLoop [index, start, stop, body]))
    (hindex : lib.node? ⟨p.graph, index⟩ = some (.var name))
    (ha : Gives Value.toInteger lib ⟨p.graph, start⟩ s.tick a s₁)
    (hb : Gives Value.toInteger lib ⟨p.graph, stop⟩ s₁ b s₂)
    (h : (requests lib fuel ⟨.enter p, [], s⟩)[k + 2]? = some r) :
    r.place = ⟨p.graph, body⟩ ∧ a + k < b ∧
      r.state.scope.find? name = some (.number (Number.ofInteger (a + k))) ∧
      ((Value.number (Number.ofInteger (a + k))).toInteger = .ok (a + k) ↔
        Number.Exact (a + k)) := by
  obtain ⟨hplace, hlt, t, ht⟩ := requests_forLoop hp hindex ha hb h
  have hlower := ha.integer_bounds
  have hupper := hb.integer_bounds
  exact ⟨hplace, hlt, by rw [ht, State.find?_atIndex],
    Value.toInteger_ofInteger_iff (by omega) (by omega)⟩

end Machine

theorem gives_integer_of_num {lib : Library} {p : Place} {s : State} {i : Int}
    (hp : lib.node? p = some (.num (Number.ofInteger i))) (hlower : -9223372036854775808 ≤ i)
    (hupper : i < 9223372036854775808) (hi : Number.Exact i) (hs : s.meter.budget = none) :
    Gives Value.toInteger lib p s i s.tick :=
  ⟨_, returns_num hp hs, (Value.toInteger_ofInteger_iff hlower hupper).2 hi⟩

theorem Passes.exists_of_var {lib : Library} {name : String} {body : Place}
    (hbody : lib.node? body = some (.var name)) (last : Option Value) (is : List Int) {s : State}
    (hs : s.meter.budget = none) :
    ∃ rs o, Passes lib name body last is s rs o ∧
      rs.map (·.state.scope.find? name) = is.map fun i => some (.number (Number.ofInteger i)) := by
  induction is generalizing last s with
  | nil => exact ⟨[], _, .done last s, rfl⟩
  | cons i is ih =>
    have hpass := returns_var hbody (s.find?_atIndex name i) hs
    obtain ⟨rs, o, h, hrs⟩ := ih (some (.number (Number.ofInteger i))) (s := (s.atIndex name i).tick) hs
    exact ⟨_, o, .passed hpass h, by simp [hrs]⟩

theorem exists_asks_of_var {lib : Library} {p : Place} {index start stop body : Nat} {name : String}
    {s s₁ s₂ : State} {a b : Int}
    (hp : lib.node? p = some (.apply .forLoop [index, start, stop, body]))
    (hindex : lib.node? ⟨p.graph, index⟩ = some (.var name))
    (hbody : lib.node? ⟨p.graph, body⟩ = some (.var name)) (hs : s.meter.budget = none)
    (ha : Gives Value.toInteger lib ⟨p.graph, start⟩ s.tick a s₁)
    (hb : Gives Value.toInteger lib ⟨p.graph, stop⟩ s₁ b s₂) (hs₂ : s₂.meter.budget = none) :
    ∃ rs o, Asks lib p s rs o ∧ ∀ k : Nat, a + k < b → ∃ r, rs[k + 2]? = some r ∧
      r.state.scope.find? name = some (.number (Number.ofInteger (a + k))) := by
  obtain ⟨rs, o, h, hrs⟩ := Passes.exists_of_var hbody none (Int.range a b) hs₂
  refine ⟨_, o, (asks_forLoop_iff hp hindex hs).2 (.passes ha hb h), fun k hk => ?_⟩
  have hlt : k < (b - a).toNat := by omega
  have hget : rs[k]?.map (·.state.scope.find? name) =
      some (some (.number (Number.ofInteger (a + k)))) := by
    rw [← List.getElem?_map, hrs]
    simp [Int.range, hlt]
  exact Option.map_eq_some_iff.1 hget

/-- Each pass of a counting loop that is reached begins with the float nearest to its integer, which
is that integer again if and only if it has at most 53 significant bits. -/
theorem index_coerces_back_iff_exact (lib : Library) (p : Place) (index start stop body : Nat)
    (name : String) (s s₁ s₂ : State) (a b : Int)
    (hp : lib.node? p = some (.apply .forLoop [index, start, stop, body]))
    (hindex : lib.node? ⟨p.graph, index⟩ = some (.var name))
    (ha : Gives Value.toInteger lib ⟨p.graph, start⟩ s.tick a s₁)
    (hb : Gives Value.toInteger lib ⟨p.graph, stop⟩ s₁ b s₂) (fuel : Nat) :
    let passes := (Machine.requests lib fuel ⟨.enter p, [], s⟩).drop 2
    (∀ (k : Nat) r, passes[k]? = some r → r.place = ⟨p.graph, body⟩ ∧ a + k < b ∧
      r.state.scope.find? name = some (.number (Number.ofInteger (a + k))) ∧
      ((Value.number (Number.ofInteger (a + k))).toInteger = .ok (a + k) ↔ Number.Exact (a + k))) ∧
    (∀ (j k : Nat) r r', passes[j]? = some r → passes[k]? = some r' → j ≠ k →
      Number.Exact (a + j) → Number.Exact (a + k) →
      r.state.scope.find? name ≠ r'.state.scope.find? name) ∧
    (-9007199254740992 ≤ a → b ≤ 9007199254740993 → ∀ k : Nat, a + k < b → Number.Exact (a + k)) := by
  intro passes
  have hpass := fun (k : Nat) r (hr : passes[k]? = some r) =>
    Machine.index_of_requests hp hindex ha hb (by rwa [List.getElem?_drop, Nat.add_comm] at hr)
  refine ⟨hpass, ?_, ?_⟩
  · intro j k r r' hr hr' hne hj hk hsame
    obtain ⟨_, _, hfind, hiff⟩ := hpass j r hr
    obtain ⟨_, _, hfind', hiff'⟩ := hpass k r' hr'
    -- The same number would coerce to both integers.
    rw [hfind, hfind', Option.some.injEq] at hsame
    have hboth := (hiff.2 hj).symm.trans (hsame ▸ hiff'.2 hk)
    have := Except.ok.inj hboth
    omega
  · intro hlow hhigh k hk
    exact Number.exact_of_natAbs_le (by omega)

theorem index_coerces_back_iff_exact_beyond :
    ∃ (lib : Library) (fuel : Nat) (r r' : Request),
      (Machine.requests lib fuel ⟨.enter ⟨0, 4⟩, [], {}⟩)[2]? = some r ∧
      (Machine.requests lib fuel ⟨.enter ⟨0, 4⟩, [], {}⟩)[4]? = some r' ∧
      r'.state.scope.find? "x" = some (.number (Number.ofInteger 9007199254740994)) ∧
      (Value.number (Number.ofInteger 9007199254740994)).toInteger = .ok 9007199254740994 ∧
      r.state.scope.find? "x" ≠ r'.state.scope.find? "x" := by
  let g : Graph := #[.var "x", .num (Number.ofInteger 9007199254740996),
    .num (Number.ofInteger 9007199254740992), .var "x", .apply .forLoop [3, 2, 1, 0]]
  let lib : Library := Library.add {} g
  have hfirst : Number.Exact 9007199254740992 := ⟨1, 53, by decide, rfl⟩
  have hlast : Number.Exact 9007199254740994 := ⟨4503599627370497, 1, by decide, rfl⟩
  have hstart : Gives Value.toInteger lib ⟨0, 2⟩ (State.tick {}) 9007199254740992
      (State.tick (State.tick {})) :=
    gives_integer_of_num rfl (by decide) (by decide) hfirst rfl
  have hstop : Gives Value.toInteger lib ⟨0, 1⟩ (State.tick (State.tick {})) 9007199254740996
      (State.tick (State.tick (State.tick {}))) :=
    gives_integer_of_num rfl (by decide) (by decide) ⟨4503599627370498, 1, by decide, rfl⟩ rfl
  obtain ⟨rs, o, ⟨_, fuel, _, rfl⟩, hrs⟩ :=
    exists_asks_of_var (p := ⟨0, 4⟩) rfl rfl rfl rfl hstart hstop rfl
  obtain ⟨r, hr, _⟩ := hrs 0 (by decide)
  obtain ⟨r', hr', _⟩ := hrs 2 (by decide)
  obtain ⟨hpass, hne, _⟩ := index_coerces_back_iff_exact lib ⟨0, 4⟩ 3 2 1 0 "x" {} _ _ _ _ rfl rfl
    hstart hstop fuel
  obtain ⟨_, _, hfind, hiff⟩ := hpass 2 r' (List.getElem?_drop.trans hr')
  have hdistinct := hne 0 2 r r' (List.getElem?_drop.trans hr) (List.getElem?_drop.trans hr')
    (by decide) hfirst hlast
  exact ⟨lib, fuel, r, r', hr, hr', hfind, hiff.2 hlast, hdistinct⟩

theorem neighbouring_passes_share_an_index :
    ∃ (lib : Library) (s₁ s₂ : State) (fuel : Nat) (r r' : Request) (v : Value),
      lib.node? ⟨0, 4⟩ = some (.apply .forLoop [3, 2, 1, 0]) ∧ lib.node? ⟨0, 3⟩ = some (.var "x") ∧
      Gives Value.toInteger lib ⟨0, 2⟩ (State.tick {}) 9007199254740992 s₁ ∧
      Gives Value.toInteger lib ⟨0, 1⟩ s₁ 9007199254740994 s₂ ∧
      (Machine.requests lib fuel ⟨.enter ⟨0, 4⟩, [], {}⟩)[2]? = some r ∧
      (Machine.requests lib fuel ⟨.enter ⟨0, 4⟩, [], {}⟩)[3]? = some r' ∧
      r.state.scope.find? "x" = some v ∧ r'.state.scope.find? "x" = some v ∧
      v.toInteger = .ok 9007199254740992 := by
  let g : Graph := #[.var "x", .num (Number.ofInteger 9007199254740994),
    .num (Number.ofInteger 9007199254740992), .var "x", .apply .forLoop [3, 2, 1, 0]]
  let lib : Library := Library.add {} g
  have hfirst : Number.Exact 9007199254740992 := ⟨1, 53, by decide, rfl⟩
  have hstart : Gives Value.toInteger lib ⟨0, 2⟩ (State.tick {}) 9007199254740992
      (State.tick (State.tick {})) :=
    gives_integer_of_num rfl (by decide) (by decide) hfirst rfl
  have hstop : Gives Value.toInteger lib ⟨0, 1⟩ (State.tick (State.tick {})) 9007199254740994
      (State.tick (State.tick (State.tick {}))) :=
    gives_integer_of_num rfl (by decide) (by decide) ⟨4503599627370497, 1, by decide, rfl⟩ rfl
  obtain ⟨rs, o, ⟨_, fuel, _, rfl⟩, hrs⟩ :=
    exists_asks_of_var (p := ⟨0, 4⟩) rfl rfl rfl rfl hstart hstop rfl
  obtain ⟨r, hr, hfind⟩ := hrs 0 (by decide)
  obtain ⟨r', hr', hfind'⟩ := hrs 1 (by decide)
  have hsame : Number.ofInteger 9007199254740993 = Number.ofInteger 9007199254740992 := by
    decide +kernel
  exact ⟨lib, _, _, fuel, r, r', _, rfl, rfl, hstart, hstop, hr, hr', hfind, hsame ▸ hfind',
    (Value.toInteger_ofInteger_iff (by decide) (by decide)).2 hfirst⟩

end ReversePolish
