import ReversePolish.Proofs.Invariant

namespace ReversePolish

inductive Library.Reach (lib : Library) (start : Place → Prop) : Place → Prop
  | start {p} : start p → Reach lib start p
  | operand {p op operands x} : Reach lib start p → lib.node? p = some (.apply op operands) →
      x ∈ operands → Reach lib start ⟨p.graph, x⟩

namespace Library.Reach

variable {lib : Library} {start : Place → Prop} {p q : Place}

theorem exists_start (h : lib.Reach start p) : ∃ q, start q ∧ lib.Reach (· = q) p := by
  induction h with
  | start h => exact ⟨_, h, .start rfl⟩
  | operand _ hn hx ih =>
    obtain ⟨q, hq, hreach⟩ := ih
    exact ⟨q, hq, .operand hreach hn hx⟩

theorem graph_eq (h : lib.Reach (· = q) p) : p.graph = q.graph := by
  induction h with
  | start h => rw [h]
  | operand _ _ _ ih => exact ih

end Library.Reach

/-- Where an evaluation can begin: with its root, or with a subroutine that is bound. -/
inductive Scope.Entry (s : Scope) (root : Place) : Place → Prop
  | root : Entry s root root
  | bound {name p} : s.find? name = some (.deferred .subroutine p) → Entry s root p

/-- The deferred values that the nodes at some places make, each out of an operand of its own. -/
inductive Library.Makes (lib : Library) (place : Place → Prop) : Origin → Place → Prop
  | define {p operands body} : place p → lib.node? p = some (.apply .define operands) →
      operands[1]? = some body → Makes lib place .subroutine ⟨p.graph, body⟩
  | whileLoop {p operands body} : place p → lib.node? p = some (.apply .whileLoop operands) →
      operands[1]? = some body → Makes lib place .loopBody ⟨p.graph, body⟩
  | forLoop {p operands body} : place p → lib.node? p = some (.apply .forLoop operands) →
      operands[3]? = some body → Makes lib place .loopBody ⟨p.graph, body⟩

namespace Provenance

variable {lib : Library} {root : Place} {scope : Scope}

def Reached (lib : Library) (scope : Scope) (root : Place) : Place → Prop :=
  lib.Reach (scope.Entry root)

def Accounted (lib : Library) (scope : Scope) (root : Place) (origin : Origin) (body : Place) : Prop :=
  (∃ name, scope.find? name = some (.deferred origin body)) ∨
    lib.Makes (Reached lib scope root) origin body

theorem reached_of_accounted {body : Place} (h : Accounted lib scope root .subroutine body) :
    Reached lib scope root body := by
  obtain ⟨name, hbound⟩ | hmade := h
  · exact .start (.bound hbound)
  · cases hmade with
    | define hp hn hbody => exact .operand hp hn (List.mem_of_getElem? hbody)

def invariant (lib : Library) (scope : Scope) (root : Place) : Invariant lib :=
  .ofDeferred (Reached lib scope root) (Accounted lib scope root) .operand reached_of_accounted
    (fun hp hn => .inr (.define hp hn rfl)) (fun hp hn => .inr (.whileLoop hp hn rfl))
    fun hp hn => .inr (.forLoop hp hn rfl)

theorem all_self : scope.All (Value.Within (Accounted lib scope root)) := by
  intro name v hv
  cases v with
  | deferred origin body => exact .inl ⟨name, hv⟩
  | _ => trivial

end Provenance

def Value.Callable (lib : Library) (v : Value) : Prop :=
  ∃ scope h graph r, Frame.resume lib scope h ⟨graph, .call, .callee⟩ v = .ok r

theorem Value.callable_iff {lib : Library} {v : Value} :
    v.Callable lib ↔ ∃ body, v = .deferred .subroutine body := by
  constructor
  · rintro ⟨scope, h, graph, r, hr⟩
    match v with
    | .deferred .subroutine body => exact ⟨body, rfl⟩
    | .deferred .loopBody _ | .number _ | .boolean _ | .array _ | .nop => cases hr
  · rintro ⟨body, rfl⟩
    exact ⟨{}, {}, 0, _, rfl⟩

inductive Outcome.Leaves (o : Outcome) : Value → Prop
  | result {v} : o.result = .ok v → Leaves o v
  | bound {name v} : o.state.scope.find? name = some v → Leaves o v

/-- Deferred values that an evaluation leaves were bound before, or else come from the definitions
and the loops within its reach. So whatever can be called was bound before, or a definition has made
it. -/
theorem only_define_makes_callable (lib : Library) (root : Place) (s : State) (o : Outcome)
    (h : Evaluates lib root s o) :
    (∀ origin body, o.Leaves (.deferred origin body) →
      (∃ name, s.scope.find? name = some (.deferred origin body)) ∨
        lib.Makes (lib.Reach (s.scope.Entry root)) origin body) ∧
    ∀ v, o.Leaves v → v.Callable lib →
      (∃ name, s.scope.find? name = some v) ∨
        ∃ p operands body, lib.Reach (s.scope.Entry root) p ∧
          lib.node? p = some (.apply .define operands) ∧ operands[1]? = some body ∧
          v = .deferred .subroutine ⟨p.graph, body⟩ := by
  have hend := (Provenance.invariant lib s.scope root).ending (.start .root) Provenance.all_self h
  have hleft : ∀ origin body, o.Leaves (.deferred origin body) →
      Provenance.Accounted lib s.scope root origin body := by
    intro origin body hv
    cases hv with
    | result hr => exact hend.value _ hr
    | bound hb => exact hend.state _ _ hb
  refine ⟨hleft, ?_⟩
  intro v hv hcall
  obtain ⟨body, rfl⟩ := Value.callable_iff.1 hcall
  obtain hbound | hmade := hleft _ _ hv
  · exact .inl hbound
  · cases hmade with
    | @define p operands body hp hn hbody => exact .inr ⟨p, operands, body, hp, hn, hbody, rfl⟩

theorem only_define_makes_callable_loop :
    ∃ p o, Program.read .standard "x nop nop != while y setq x f defsub prog2" = .ok p ∧
      Evaluates (Library.add {} p.graph) ⟨0, p.root⟩ {} o ∧
      o.state.scope.find? "y" = some (.deferred .loopBody ⟨0, 0⟩) ∧
      (Library.add {} p.graph).Makes ((Library.add {} p.graph).Reach (Scope.Entry {} ⟨0, p.root⟩))
        .loopBody ⟨0, 0⟩ ∧
      o.state.scope.find? "f" = some (.deferred .subroutine ⟨0, 7⟩) ∧
      (Library.add {} p.graph).Makes ((Library.add {} p.graph).Reach (Scope.Entry {} ⟨0, p.root⟩))
        .subroutine ⟨0, 7⟩ := by
  let lib : Library := ⟨#[#[.var "x", .apply .nop [], .apply .nop [], .apply .ne [2, 1],
    .apply .whileLoop [3, 0], .var "y", .apply .assign [5, 4], .var "x", .var "f",
    .apply .define [8, 7], .apply .prog2 [9, 6]]]⟩
  have hread : Program.read .standard "x nop nop != while y setq x f defsub prog2" =
      .ok ⟨lib.graph 0, 10⟩ := rfl
  let body : Value := .deferred .loopBody ⟨0, 0⟩
  let scope : Scope := (Scope.bind {} "f" (.deferred .subroutine ⟨0, 7⟩)).bind "y" body
  have hrun : evaluate 25 lib ⟨0, 10⟩ {} = some ⟨.ok body, { scope, meter := ⟨none, 10⟩ }⟩ := rfl
  have hy : scope.find? "y" = some body := by simp [scope]
  have hf : scope.find? "f" = some (.deferred .subroutine ⟨0, 7⟩) := by simp [scope]
  obtain ⟨hleft, _⟩ := only_define_makes_callable lib ⟨0, 10⟩ {} _ ⟨25, hrun⟩
  obtain ⟨_, hempty⟩ | hloop := hleft _ _ (.bound hy)
  · simp at hempty
  obtain ⟨_, hempty⟩ | hdefine := hleft _ _ (.bound hf)
  · simp at hempty
  exact ⟨_, _, hread, ⟨25, hrun⟩, hy, hloop, hf, hdefine⟩

end ReversePolish
