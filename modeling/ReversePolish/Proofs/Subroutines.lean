import ReversePolish.Proofs.Requests
import ReversePolish.Proofs.Reuse
import ReversePolish.Proofs.WordLaws

namespace ReversePolish

def Program.define (p : Program) (name : String) : Program where
  graph := (p.graph.push (.var name)).push (.apply .define [p.graph.size, p.root])
  root := p.graph.size + 1

def Program.call (name : String) : Program where
  graph := #[.var name, .apply .call [0]]
  root := 1

section Reading

variable {v : Vocabulary} {text name : String} {p : Program} {a : Assembler}

theorem Assembler.push_var (hop : v.find? name = none) (hnum : Number.read? name = none) :
    a.push v name = .ok (a.add (.var name) 0) := by
  simp only [push, hop, hnum]

theorem Assembler.push_operation {op : Operation} (operands rest : List Nat)
    (hop : v.find? name = some op) (hstack : a.stack = operands ++ rest)
    (hlen : operands.length = op.arity) :
    a.push v name = .ok (a.add (.apply op operands) op.arity) := by
  have htake : a.stack.take op.arity = operands := by rw [hstack, ← hlen, List.take_left]
  simp only [push, hop, htake, hlen, Nat.lt_irrefl, if_false]

theorem Assembler.foldlM_snoc {ws : List String} {a b c : Assembler}
    (h : ws.foldlM (fun a word => a.push v word) a = .ok b) (hb : b.push v name = .ok c) :
    (ws ++ [name]).foldlM (fun a word => a.push v word) a = .ok c := by
  rw [List.foldlM_append, h]
  change (b.push v name >>= pure) = .ok c
  rw [hb]
  rfl

theorem Program.read_of_foldlM
    (h : (words text).foldlM (fun a word => a.push v word) ({} : Assembler) = .ok a) :
    read v text = a.finish := by
  rw [read, h]
  rfl

theorem Program.read_define (hread : read .standard text = .ok p) (hword : words name = [name])
    (hop : Vocabulary.standard.find? name = none) (hnum : Number.read? name = none) :
    read .standard (text ++ " " ++ name ++ " defsub") = .ok (p.define name) := by
  obtain ⟨⟨_, _, position⟩, hf, rfl, rfl⟩ := read_eq_ok hread
  let a : Assembler := ⟨p.graph, [p.root], position⟩
  have hwords : words (text ++ " " ++ name ++ " defsub") = words text ++ [name] ++ ["defsub"] := by
    rw [show " defsub" = " " ++ "defsub" from rfl, ← String.append_assoc, words_append_space,
      words_append_space, hword]
    rfl
  have hdefine : (a.add (.var name) 0).push .standard "defsub" =
      .ok ((a.add (.var name) 0).add (.apply .define [p.graph.size, p.root]) 2) :=
    Assembler.push_operation [p.graph.size, p.root] [] rfl rfl rfl
  have hfold := Assembler.foldlM_snoc (Assembler.foldlM_snoc hf (Assembler.push_var hop hnum)) hdefine
  rw [← hwords] at hfold
  have hroot : (p.graph.push (.var name)).size = p.graph.size + 1 := Array.size_push _
  rw [read_of_foldlM hfold, define, ← hroot]
  rfl

theorem Program.read_call (hword : words name = [name])
    (hop : Vocabulary.standard.find? name = none) (hnum : Number.read? name = none) :
    read .standard (name ++ " call") = .ok (call name) := by
  have hwords : words (name ++ " call") = [] ++ [name] ++ ["call"] := by
    rw [show " call" = " " ++ "call" from rfl, ← String.append_assoc, words_append_space, hword]
    rfl
  let a : Assembler := {}
  have hcall : (a.add (.var name) 0).push .standard "call" =
      .ok ((a.add (.var name) 0).add (.apply .call [0]) 1) :=
    Assembler.push_operation [0] [] rfl rfl rfl
  have hempty : [].foldlM (fun a word => Assembler.push .standard word a) a = .ok a := rfl
  have hfold := Assembler.foldlM_snoc (Assembler.foldlM_snoc hempty (Assembler.push_var hop hnum)) hcall
  rw [← hwords] at hfold
  exact read_of_foldlM hfold

namespace Program

variable {id : Nat}

theorem getElem?_define_root :
    (p.define name).graph[(p.define name).root]? = some (.apply .define [p.graph.size, p.root]) := by
  have hroot : (p.graph.push (.var name)).size = p.graph.size + 1 := Array.size_push _
  rw [define, ← hroot]
  exact Array.getElem?_push_size

theorem getElem?_define_name : (p.define name).graph[p.graph.size]? = some (.var name) := by
  rw [define, Array.getElem?_push_lt (by simp)]
  simp

theorem getElem?_define_of_lt (hid : id < p.graph.size) :
    (p.define name).graph[id]? = p.graph[id]? := by
  rw [define, Array.getElem?_push, Array.getElem?_push, Array.size_push, if_neg (by omega),
    if_neg (by omega)]

end Program

end Reading

section Operations

variable {lib : Library} {p body : Place} {name : String} {x : Nat} {s : State}

theorem returns_define {body : Nat} (hs : s.meter.budget = none)
    (hp : lib.node? p = some (.apply .define [x, body]))
    (hx : lib.node? ⟨p.graph, x⟩ = some (.var name)) :
    Returns lib p s ⟨.ok (.deferred .subroutine ⟨p.graph, body⟩),
      s.tick.apply (.bind name (.deferred .subroutine ⟨p.graph, body⟩))⟩ := by
  have hfree : ¬ Machine.Hangs lib ⟨.enter p, [], s⟩ := by
    refine Machine.not_hangs_enter hp fun y hy => ?_
    obtain rfl : x = y := Option.some.inj hy
    exact ⟨name, hx⟩
  have htarget : lib.targetName .define ⟨p.graph, x⟩ = .ok name := by
    simp only [Library.targetName, hx]
  have henter : Frame.enter lib p.graph .define [x, body] =
      .ok (.bind name (.deferred .subroutine ⟨p.graph, body⟩),
        .finish (.deferred .subroutine ⟨p.graph, body⟩)) := by
    change lib.targetName .define ⟨p.graph, x⟩ >>= _ = _
    rw [htarget]
    rfl
  have hasks := (Machine.asks_operation_iff hp hfree hs).2 (by rw [henter]; exact ⟨rfl, rfl⟩)
  exact hasks.returns

theorem Machine.asks_result_iff {op : Operation} {graph : Nat} {rs : List Request} {o' : Outcome} :
    Asks lib ⟨.enter body, [⟨graph, op, .result⟩], s⟩ rs o' ↔ rs = [⟨body, s⟩] ∧
      ∃ o, ReversePolish.Returns lib body s o ∧ o' = ⟨o.result.mapError (·.within op), o.state⟩ := by
  refine (asks_await_iff (fun _ => rfl) (by simp)).trans ⟨?_, ?_⟩
  · rintro (⟨e, t, he, rfl, rfl⟩ | ⟨v, t, _, hv, ⟨rfl, rfl⟩, rfl⟩)
    · exact ⟨rfl, _, he, rfl⟩
    · exact ⟨rfl, _, hv, rfl⟩
  · rintro ⟨rfl, ⟨result, t⟩, ho, rfl⟩
    cases result with
    | error e => exact .inl ⟨e, t, ho, rfl, rfl⟩
    | ok v => exact .inr ⟨v, t, [], ho, ⟨rfl, rfl⟩, rfl⟩

theorem returns_call_iff {o' : Outcome} (hs : s.meter.budget = none)
    (hp : lib.node? p = some (.apply .call [x])) (hx : lib.node? ⟨p.graph, x⟩ = some (.var name))
    (hname : s.scope.find? name = some (.deferred .subroutine body)) :
    Returns lib p s o' ↔ ∃ o, Returns lib body s o ∧
      o' = ⟨o.result.mapError (·.within .call), State.tick^[2] o.state⟩ := by
  have hcallee : Returns lib ⟨p.graph, x⟩ s.tick ⟨.ok (.deferred .subroutine body), s.tick.tick⟩ :=
    returns_var hx hname hs
  have hasks : ∀ rs, Asks lib p s rs o' ↔ _ := fun rs =>
    (Machine.asks_operation_iff hp (Machine.not_hangs_enter_of_none hp rfl) hs).trans
      (Machine.asks_await_iff (fun _ => rfl) (by simp))
  constructor
  · intro h
    obtain ⟨rs, hrs⟩ := Machine.Asks.of_returns h
    obtain ⟨e, t, he, _⟩ | ⟨v, t, rs', hv, hbody, _⟩ := (hasks rs).1 hrs
    · cases hcallee.unique he
    · cases hcallee.unique hv
      obtain ⟨_, _, hticked, rfl⟩ := Machine.asks_result_iff.1 hbody
      obtain ⟨o, ho, rfl⟩ := (returns_ticks_iff hs 2).1 hticked
      exact ⟨o, ho, rfl⟩
  · rintro ⟨o, ho, rfl⟩
    have hbody := (returns_ticks_iff hs 2).2 ⟨o, ho, rfl⟩
    exact ((hasks _).2 (.inr ⟨_, _, _, hcallee, Machine.asks_result_iff.2 ⟨rfl, _, hbody, rfl⟩,
      rfl⟩)).returns

end Operations

namespace Program

variable {body : Place} {name : String} {s : State}

theorem returns_define (q : Program) (lib : Library) (name : String)
    (hs : s.meter.budget = none) :
    Returns (lib.add (q.define name).graph) ⟨lib.next, (q.define name).root⟩ s
      ⟨.ok (.deferred .subroutine ⟨lib.next, q.root⟩),
        s.tick.apply (.bind name (.deferred .subroutine ⟨lib.next, q.root⟩))⟩ := by
  apply ReversePolish.returns_define hs (x := q.graph.size)
  · rw [Library.node?, Library.graph_add_next, getElem?_define_root]
  · rw [Library.node?, Library.graph_add_next, getElem?_define_name]

theorem returns_call_iff (o' : Outcome) (lib : Library) (hs : s.meter.budget = none)
    (hname : s.scope.find? name = some (.deferred .subroutine body)) :
    Returns (lib.add (call name).graph) ⟨lib.next, (call name).root⟩ s o' ↔
      ∃ o, Returns (lib.add (call name).graph) body s o ∧
        o' = ⟨o.result.mapError (·.within .call), State.tick^[2] o.state⟩ := by
  refine ReversePolish.returns_call_iff (x := 0) hs ?_ ?_ hname
  · rw [Library.node?, Library.graph_add_next]
    rfl
  · rw [Library.node?, Library.graph_add_next]
    rfl

end Program

structure Library.Shares (lib lib' : Library) (name : String) (graph : Nat) : Prop where
  lt : graph < lib.next
  lt' : graph < lib'.next
  same : lib'.graph graph = lib.graph graph
  var : Node.var name ∉ lib.graph graph

namespace Relocation

variable {lib lib' : Library} {name : String}

def Domain (lib lib' : Library) (name : String) (g : Graph) (p : Place) : Prop :=
  p.graph = lib.next ∧ p.node < g.size ∨ lib.Shares lib' name p.graph

theorem embedding_define (lib lib' : Library) {q : Program} (hq : q.graph.WellFormed)
    (hvar : Node.var name ∉ q.graph) (g : Graph) :
    (regraph lib.next lib'.next).Embedding (lib.add q.graph)
      ((lib'.add (q.define name).graph).add g) (Domain lib lib' name q.graph) (· ≠ name) where
  operand := by
    rintro ⟨n, id⟩ op operands x (⟨rfl, hid⟩ | hshared) hn hx
    · rw [Library.node?, Library.graph_add_next] at hn
      exact .inl ⟨rfl, Nat.lt_trans ((hq id op operands hn).2 x hx) hid⟩
    · exact .inr hshared
  node := by
    rintro ⟨n, id⟩ (⟨rfl, hid⟩ | hshared)
    · rw [map_content_eq_self fun _ => rfl, place_regraph_self, Library.node?, Library.node?,
        Library.graph_add_of_lt _ (by simp), Library.graph_add_next, Library.graph_add_next]
      exact Program.getElem?_define_of_lt hid
    · have hlt : n < (lib'.add (q.define name).graph).next := by
        rw [Library.next_add]
        exact Nat.lt_succ_of_lt hshared.lt'
      rw [map_content_eq_self fun _ => rfl, place_regraph_of_ne (Nat.ne_of_lt hshared.lt),
        Library.node?, Library.node?, Library.graph_add_of_lt _ hlt,
        Library.graph_add_of_lt _ hshared.lt', Library.graph_add_of_lt _ hshared.lt, hshared.same]
  missing _ _ := rfl
  injective := by
    -- The new number is that of no graph that was there before.
    rintro ⟨n, id⟩ ⟨n', id'⟩ (⟨rfl, _⟩ | hn) (⟨rfl, _⟩ | hn') h
    · rw [place_regraph_self, place_regraph_self] at h
      cases h
      rfl
    · rw [place_regraph_self, place_regraph_of_ne (Nat.ne_of_lt hn'.lt)] at h
      cases h
      exact absurd hn'.lt' (Nat.lt_irrefl _)
    · rw [place_regraph_self, place_regraph_of_ne (Nat.ne_of_lt hn.lt)] at h
      cases h
      exact absurd hn.lt' (Nat.lt_irrefl _)
    · rwa [place_regraph_of_ne (Nat.ne_of_lt hn.lt), place_regraph_of_ne (Nat.ne_of_lt hn'.lt)] at h
  var := by
    rintro ⟨n, id⟩ other (⟨rfl, _⟩ | hshared) hn rfl
    · rw [Library.node?, Library.graph_add_next] at hn
      exact hvar (Array.mem_of_getElem? hn)
    · rw [Library.node?, Library.graph_add, if_neg (Nat.ne_of_lt hshared.lt)] at hn
      exact hshared.var (Array.mem_of_getElem? hn)

theorem alike_bind {s : State}
    (hs : s.scope.All (Value.Within fun _ body => lib.Shares lib' name body.graph)) (v : Value) :
    (regraph lib.next lib'.next).Alike (· ≠ name) s { s with scope := s.scope.bind name v } where
  scope other hother := by
    rw [Scope.find?_bind, if_neg (Ne.symm hother)]
    cases hv : s.scope.find? other with
    | none => rfl
    | some w =>
      have hw : w.Within fun _ body => body.graph ≠ lib.next :=
        (hs other w hv).imp fun _ _ hshared => Nat.ne_of_lt hshared.lt
      rw [Option.map_some, value_regraph hw]
  heap := rfl
  meter := rfl
  printer := rfl

end Relocation

section Reports

structure Runs (lib : Library) (text : String) (s : State) (r : Report) : Prop where
  ends : ∃ fuel, runWith fuel .standard lib text s = some r
  goes_on : ∀ p m, Program.read .standard text = .ok p →
    Machine.Reaches (lib.add p.graph) { control := .enter ⟨lib.next, p.root⟩, state := s } m →
    ¬ m.Hangs (lib.add p.graph)

theorem runs_iff (lib : Library) {text : String} {s : State} {r : Report} {p : Program}
    (hread : Program.read .standard text = .ok p) :
    Runs lib text s r ↔ ∃ o, Returns (lib.add p.graph) ⟨lib.next, p.root⟩ s o ∧
      r = ⟨o.result.mapError .fault, lib.add p.graph, o.state⟩ := by
  have hrun : ∀ fuel, runWith fuel .standard lib text s =
      (evaluate fuel (lib.add p.graph) ⟨lib.next, p.root⟩ s).map fun o =>
        ⟨o.result.mapError .fault, lib.add p.graph, o.state⟩ := by
    intro fuel
    simp only [runWith, hread]
  constructor
  · rintro ⟨⟨fuel, hr⟩, hgoes⟩
    rw [hrun] at hr
    obtain ⟨o, ho, rfl⟩ := Option.map_eq_some_iff.1 hr
    exact ⟨o, ⟨⟨fuel, ho⟩, fun m => hgoes p m hread⟩, rfl⟩
  · rintro ⟨o, ⟨⟨fuel, ho⟩, hgoes⟩, rfl⟩
    refine ⟨⟨fuel, ?_⟩, fun q m hq => ?_⟩
    · rw [hrun]
      exact congrArg (Option.map _) ho
    · rw [hread] at hq
      obtain rfl := Except.ok.inj hq
      exact hgoes m

def RunError.within (op : Operation) : RunError → RunError
  | .fault f => .fault (f.within op)
  | e => e

structure Report.Called (ρ : Relocation) (name : String) (r r' : Report) : Prop where
  result : r'.result = (r.result.map ρ.value).mapError (RunError.within .call)
  scope : ∀ other, other ≠ name →
    r'.state.scope.find? other = (r.state.scope.find? other).map ρ.value
  heap : r'.state.heap = r.state.heap
  printer : r'.state.printer = r.state.printer
  steps : r'.state.meter.steps = min (r.state.meter.steps + 2) Meter.ceiling

theorem Report.called_of_same {ρ : Relocation} {name : String} {o o' : Outcome} {lib lib' : Library}
    (h : ρ.Same (· ≠ name) o o') :
    Called ρ name ⟨o.result.mapError .fault, lib, o.state⟩
      ⟨(o'.result.mapError (·.within .call)).mapError .fault, lib', State.tick^[2] o'.state⟩ where
  result := by
    rw [h.result]
    cases o.result <;> rfl
  scope := h.state.scope
  heap := h.state.heap
  printer := h.state.printer
  steps := by
    change min (min (o'.state.meter.steps + 1) Meter.ceiling + 1) Meter.ceiling =
      min (o.state.meter.steps + 2) Meter.ceiling
    rw [h.state.meter]
    omega

/-- A text that is made a subroutine does nothing then. When it is called later on, it does what the
text does by itself, but for two more steps and the name of an operation for failures that have
none. The values that it defers are in the graph of the definition instead of its own. -/
theorem subroutine_means_its_text (lib lib' : Library) (text name : String) (p : Program) (s : State)
    (hread : Program.read .standard text = .ok p) (hword : words name = [name])
    (hop : Vocabulary.standard.find? name = none) (hnum : Number.read? name = none)
    (hvar : Node.var name ∉ p.graph)
    (hscope : s.scope.All (Value.Within fun _ body => lib.Shares lib' name body.graph))
    (hmeter : s.meter.budget = none) :
    ∃ d : Report, Runs lib' (text ++ " " ++ name ++ " defsub") s d ∧
      d.result = .ok (.deferred .subroutine ⟨lib'.next, p.root⟩) ∧
      d.state.printer = s.printer ∧ d.state.heap = s.heap ∧
      (∀ other, other ≠ name → d.state.scope.find? other = s.scope.find? other) ∧
      (∀ r, Runs lib text s r →
        ∃ r', Runs d.library (name ++ " call") { d.state with meter := s.meter } r' ∧
          r.Called (.regraph lib.next lib'.next) name r') ∧
      ∀ r', Runs d.library (name ++ " call") { d.state with meter := s.meter } r' →
        ∃ r, Runs lib text s r ∧ r.Called (.regraph lib.next lib'.next) name r' := by
  obtain ⟨hp, hroot⟩ := Program.wellFormed_of_read hread
  let v : Value := .deferred .subroutine ⟨lib'.next, p.root⟩
  let libd := lib'.add (p.define name).graph
  let s' : State := { s with scope := s.scope.bind name v }
  have hreadd := Program.read_define hread hword hop hnum
  have hreadc := Program.read_call hword hop hnum
  have hname : s'.scope.find? name = some v := by simp [s']
  have hcall := fun o => Program.returns_call_iff (s := s') o libd hmeter hname
  -- The text, and the body where the call finds it.
  have hembedding := Relocation.embedding_define lib lib' hp hvar (Program.call name).graph
  have hplace := Relocation.place_regraph_self lib.next lib'.next p.root
  have hstart : Relocation.Domain lib lib' name p.graph ⟨lib.next, p.root⟩ := .inl ⟨rfl, hroot⟩
  have hwithin : s.scope.All (Value.Within fun _ => Relocation.Domain lib lib' name p.graph) :=
    hscope.imp fun _ hv => hv.imp fun _ _ => .inr
  have halike : (Relocation.regraph lib.next lib'.next).Alike (· ≠ name) s s' :=
    Relocation.alike_bind hscope v
  obtain ⟨hboth, hsame⟩ := hembedding.returns_alike hstart (hwithin.allOf _) halike
  rw [hplace] at hboth hsame
  refine ⟨⟨.ok v, libd, s.tick.apply (.bind name v)⟩,
    (runs_iff lib' hreadd).2 ⟨_, p.returns_define lib' name hmeter, rfl⟩, rfl, rfl, rfl, ?_, ?_, ?_⟩
  · intro other hother
    change (s.scope.bind name v).find? other = s.scope.find? other
    rw [Scope.find?_bind, if_neg (Ne.symm hother)]
  · intro r hr
    obtain ⟨o, ho, rfl⟩ := (runs_iff lib hread).1 hr
    obtain ⟨o', ho'⟩ := hboth.1 ⟨o, ho⟩
    exact ⟨_, (runs_iff libd hreadc).2 ⟨_, (hcall _).2 ⟨o', ho', rfl⟩, rfl⟩,
      Report.called_of_same (hsame o o' ho ho')⟩
  · intro r' hr'
    obtain ⟨_, hr, rfl⟩ := (runs_iff libd hreadc).1 hr'
    obtain ⟨o', ho', rfl⟩ := (hcall _).1 hr
    obtain ⟨o, ho⟩ := hboth.2 ⟨o', ho'⟩
    exact ⟨_, (runs_iff lib hread).2 ⟨o, ho, rfl⟩, Report.called_of_same (hsame o o' ho ho')⟩

theorem subroutine_means_its_text_loop :
    ∃ (lib lib' : Library) (s : State) (d r r' : Report),
      s.scope.find? "g" = some (.deferred .subroutine ⟨0, 0⟩) ∧ lib.Shares lib' "f" 0 ∧
      Runs lib "x g call while y setq" s r ∧
      Runs lib' "x g call while y setq f defsub" s d ∧
      Runs d.library "f call" { d.state with meter := s.meter } r' ∧
      r.result = .ok (.deferred .loopBody ⟨1, 0⟩) ∧
      r'.result = .ok (.deferred .loopBody ⟨2, 0⟩) ∧
      r.state.scope.find? "y" = some (.deferred .loopBody ⟨1, 0⟩) ∧
      r'.state.scope.find? "y" = some (.deferred .loopBody ⟨2, 0⟩) ∧
      r'.state.meter.steps = r.state.meter.steps + 2 := by
  let lib : Library := ⟨#[#[.var "z"]]⟩
  let lib' : Library := ⟨#[#[.var "z"], #[]]⟩
  let p : Program := ⟨#[.var "x", .var "g", .apply .call [1], .apply .whileLoop [2, 0], .var "y",
    .apply .assign [4, 3]], 5⟩
  let body : Value := .deferred .loopBody ⟨1, 0⟩
  let scope : Scope := (Scope.bind {} "z" (.boolean false)).bind "g" (.deferred .subroutine ⟨0, 0⟩)
  have hread : Program.read .standard "x g call while y setq" = .ok p := rfl
  have hgraph := (Program.wellFormed_of_read hread).1.descending
  have hreadz : Program.read .standard "z" = .ok ⟨#[.var "z"], 0⟩ := rfl
  have hz := (Program.wellFormed_of_read hreadz).1.descending
  have hdescends : scope.Descends (lib.add p.graph) :=
    (Scope.all_empty.bind "z" trivial).bind "g" ((Library.descends_next {} hz 0).add hgraph)
  have hreturns : Returns (lib.add p.graph) ⟨1, 5⟩ { scope }
      ⟨.ok body, { scope := scope.bind "y" body, meter := ⟨none, 8⟩ }⟩ :=
    (Library.legible (Library.descends_next lib hgraph 5) hdescends).returns ⟨20, rfl⟩
  have hr := (runs_iff lib hread).2 ⟨_, hreturns, rfl⟩
  have hshares : lib.Shares lib' "f" 0 := ⟨by decide, by decide, rfl, by simp [lib, Library.graph]⟩
  have hscope : scope.All (Value.Within fun _ body => lib.Shares lib' "f" body.graph) :=
    (Scope.all_empty.bind "z" trivial).bind "g" hshares
  obtain ⟨d, hd, _, _, _, _, hcalls, _⟩ := subroutine_means_its_text lib lib' _ "f" p { scope } hread
    rfl rfl (by decide) (by simp [p]) hscope rfl
  obtain ⟨r', hr', hcalled⟩ := hcalls _ hr
  have hy : (scope.bind "y" body).find? "y" = some body := by simp
  refine ⟨lib, lib', { scope }, d, _, r', by simp [scope], hshares, hr, hd, hr', rfl, hcalled.result,
    hy, ?_, hcalled.steps⟩
  rw [hcalled.scope "y" (by decide)]
  exact congrArg (Option.map _) hy

end Reports

end ReversePolish
