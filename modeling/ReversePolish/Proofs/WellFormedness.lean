import ReversePolish.Proofs.GraphLaws
import ReversePolish.Proofs.Invariant

namespace ReversePolish

structure Place.WellFormed (lib : Library) (p : Place) : Prop where
  graph : (lib.graph p.graph).WellFormed
  node : p.node < (lib.graph p.graph).size

def Value.WellFormed (lib : Library) : Value → Prop :=
  Value.Within fun _ body => body.WellFormed lib

def Scope.WellFormed (lib : Library) (s : Scope) : Prop :=
  s.All (Value.WellFormed lib)

def Cause.Regular (c : Cause) : Prop :=
  (∀ id, c ≠ .notAnExpression id) ∧ ∀ op found, c ≠ .arityMismatch op found

theorem Cause.regular_of_category {c : Cause} (h : c.category ≠ .notAnExpression) : c.Regular := by
  constructor
  · rintro id rfl
    exact h rfl
  · rintro op found rfl
    exact h rfl

namespace Place

variable {lib : Library} {p : Place}

theorem WellFormed.operand {op : Operation} {operands : List Nat} {x : Nat} (hp : p.WellFormed lib)
    (hn : lib.node? p = some (.apply op operands)) (hx : x ∈ operands) :
    WellFormed lib ⟨p.graph, x⟩ where
  graph := hp.graph
  node := Nat.lt_trans ((hp.graph p.node op operands hn).2 x hx) hp.node

theorem WellFormed.node?_ne_none (hp : p.WellFormed lib) : lib.node? p ≠ none := by
  rw [Library.node?, Array.getElem?_eq_getElem hp.node]
  simp

theorem WellFormed.add (hp : p.WellFormed lib) (g : Graph) : p.WellFormed (lib.add g) := by
  have hne : p.graph ≠ lib.next := by
    intro h
    have hnode := hp.node
    simp [h, Library.graph, Library.next] at hnode
  have hg : (lib.add g).graph p.graph = lib.graph p.graph := by
    rw [Library.graph_add, if_neg hne]
  exact ⟨hg ▸ hp.graph, hg ▸ hp.node⟩

end Place

theorem Scope.WellFormed.add {lib : Library} {s : Scope} (hs : s.WellFormed lib) (g : Graph) :
    s.WellFormed (lib.add g) :=
  hs.imp fun _ hv => hv.imp fun _ _ hbody => hbody.add g

namespace WellFormedness

variable {lib : Library}

def invariant (lib : Library) : Invariant lib :=
  .ofPlaces (Place.WellFormed lib) Place.WellFormed.operand

theorem category_targetName {p : Place} {op : Operation} {cause : Cause} (hp : p.WellFormed lib)
    (h : lib.targetName op p = .error cause) : cause.category ≠ .notAnExpression := by
  rcases Library.targetName_eq_error h with hc | ⟨hn, _⟩
  · simp [hc]
  · exact absurd hn hp.node?_ne_none

variable {p : Place} {op : Operation} {operands : List Nat} {cause : Cause}

theorem category_of_rejects (hp : p.WellFormed lib) (hn : lib.node? p = some (.apply op operands))
    (h : Frame.Rejects lib p.graph op operands cause) : cause.category ≠ .notAnExpression := by
  cases h with
  | arity hlen => exact absurd (hp.graph _ _ _ hn).1 hlen
  | target hx ht => exact category_targetName (hp.operand hn hx) ht

theorem category_of_breaks {pending : Pending} {h : Heap} {v : Value} (hp : p.WellFormed lib)
    (hn : lib.node? p = some (.apply op operands)) (hw : pending.Suits lib p.graph op operands)
    (hb : Frame.Breaks lib h ⟨p.graph, op, pending⟩ v cause) :
    cause.category ≠ .notAnExpression := by
  cases hb with
  | value hc =>
    intro he
    simp [he] at hc
  | target hx ht => exact category_targetName (hp.operand hn (hw.target_mem hx)) ht
  | @applied done _ hpending hr =>
    obtain rfl : pending = .operands done [] := hpending
    obtain ⟨hpure, hlen⟩ := hw.isPure
    cases hr with
    | type hc => simp [hc]
    | arithmetic hc => simp [hc]
    | arity hne => exact absurd (hlen.trans (hp.graph _ _ _ hn).1) (hne hpure)

theorem category_of_failure (h : (invariant lib).Failure cause) :
    cause.category ≠ .notAnExpression := by
  cases h with
  | budget limit => exact nofun
  | unbound name => exact nofun
  | missing hp hn => exact absurd hn hp.node?_ne_none
  | entering hp hn he => exact category_of_rejects hp hn (Frame.fails_enter.cause he)
  | resuming hp hn hw he => exact category_of_breaks hp hn hw (Frame.fails_resume.cause he)

structure Sound (lib : Library) (o : Outcome) : Prop where
  regular : ∀ f, o.result = .error f → f.cause.Regular
  value : ∀ v, o.result = .ok v → v.WellFormed lib
  scope : o.state.scope.WellFormed lib

theorem sound_of_evaluates {p : Place} {s : State} {o : Outcome} (hp : p.WellFormed lib)
    (hs : s.scope.WellFormed lib) (h : Evaluates lib p s o) : Sound lib o := by
  have he := (invariant lib).ending hp hs h
  exact ⟨fun f hf => Cause.regular_of_category (category_of_failure (he.failure f hf)), he.value,
    he.state⟩

theorem root_wellFormed {v : Vocabulary} {text : String} {p : Program}
    (h : Program.read v text = .ok p) (lib : Library) :
    Place.WellFormed (lib.add p.graph) ⟨lib.next, p.root⟩ := by
  obtain ⟨hg, hr⟩ := Program.wellFormed_of_read h
  constructor
  · simpa only [Library.graph_add_next] using hg
  · simpa only [Library.graph_add_next] using hr

end WellFormedness

/-- What outlives a run: the bindings, the arrays and the programs that were read. -/
structure Session where
  library : Library
  scope : Scope
  heap : Heap
  programs : List Place := []

namespace Session

inductive Step : Session → List (Except RunError Value) → Session → Prop
  | read {σ : Session} {v text p} : Program.read v text = .ok p →
      Step σ [] { σ with
        library := σ.library.add p.graph
        programs := ⟨σ.library.next, p.root⟩ :: σ.programs }
  | evaluate {σ : Session} {place meter printer o} : place ∈ σ.programs →
      Evaluates σ.library place ⟨σ.scope, σ.heap, meter, printer⟩ o →
      Step σ [o.result.mapError .fault] { σ with scope := o.state.scope, heap := o.state.heap }
  | run {σ : Session} {fuel v text meter printer r} :
      runWith fuel v σ.library text ⟨σ.scope, σ.heap, meter, printer⟩ = some r →
      Step σ [r.result] { σ with
        library := r.library
        scope := r.state.scope
        heap := r.state.heap }

inductive Steps : Session → List (Except RunError Value) → Session → Prop
  | nil (σ) : Steps σ [] σ
  | cons {σ σ' σ'' reports reports'} : Step σ reports σ' → Steps σ' reports' σ'' →
      Steps σ (reports ++ reports') σ''

structure WellFormed (σ : Session) : Prop where
  scope : σ.scope.WellFormed σ.library
  programs : ∀ place ∈ σ.programs, place.WellFormed σ.library

def Regular (reports : List (Except RunError Value)) : Prop :=
  ∀ f, .error (.fault f) ∈ reports → f.cause.Regular

open WellFormedness

theorem regular_singleton {lib : Library} {o : Outcome} (h : Sound lib o) :
    Regular [o.result.mapError .fault] := by
  intro f hf
  have hf := List.mem_singleton.1 hf
  cases hr : o.result with
  | ok v =>
    rw [hr] at hf
    cases hf
  | error g =>
    rw [hr] at hf
    obtain rfl : f = g := RunError.fault.inj (Except.error.inj hf)
    exact h.regular f hr

theorem Step.keeps {σ σ' : Session} {reports : List (Except RunError Value)}
    (h : Step σ reports σ') (hσ : σ.WellFormed) : Regular reports ∧ σ'.WellFormed := by
  cases h with
  | @read _ _ p hr =>
    refine ⟨by simp [Regular], hσ.scope.add p.graph, ?_⟩
    intro place hp
    cases hp with
    | head => exact root_wellFormed hr σ.library
    | tail _ hp => exact (hσ.programs place hp).add p.graph
  | evaluate hp he =>
    have ho := sound_of_evaluates (hσ.programs _ hp) hσ.scope he
    exact ⟨regular_singleton ho, ho.scope, hσ.programs⟩
  | run hr =>
    obtain ⟨e, _, rfl⟩ | ⟨p, o, hp, ho, rfl⟩ := runWith_eq_some hr
    · exact ⟨by simp [Regular], hσ⟩
    · have hs := sound_of_evaluates (root_wellFormed hp σ.library) (hσ.scope.add p.graph) ⟨_, ho⟩
      exact ⟨regular_singleton hs, hs.scope, fun q hq => (hσ.programs q hq).add p.graph⟩

theorem Steps.keeps {σ σ' : Session} {reports : List (Except RunError Value)}
    (h : Steps σ reports σ') (hσ : σ.WellFormed) : Regular reports ∧ σ'.WellFormed := by
  induction h with
  | nil σ => exact ⟨by simp [Regular], hσ⟩
  | cons hs _ ih =>
    obtain ⟨hr, hσ'⟩ := hs.keeps hσ
    obtain ⟨hr', hσ''⟩ := ih hσ'
    refine ⟨?_, hσ''⟩
    intro f hf
    exact (List.mem_append.1 hf).elim (hr f) (hr' f)

end Session

/-- Read programs do not go wrong, one by one or in a session of any length. -/
theorem read_programs_dont_go_wrong :
    (∀ v text p lib s o, Program.read v text = .ok p → s.scope.WellFormed lib →
      Evaluates (lib.add p.graph) ⟨lib.next, p.root⟩ s o →
      WellFormedness.Sound (lib.add p.graph) o) ∧
    ∀ σ σ' reports, σ.scope.WellFormed σ.library → σ.programs = [] →
      Session.Steps σ reports σ' →
      Session.Regular reports ∧ σ'.scope.WellFormed σ'.library := by
  constructor
  · intro v text p lib s o hp hs h
    exact WellFormedness.sound_of_evaluates (WellFormedness.root_wellFormed hp lib) (hs.add p.graph) h
  · intro σ σ' reports hs hp h
    obtain ⟨hr, hσ'⟩ := h.keeps ⟨hs, by simp [hp]⟩
    exact ⟨hr, hσ'.scope⟩

theorem read_programs_dont_go_wrong_define_call :
    ∃ p o σ, Program.read .standard "x f defsub" = .ok p ∧ Scope.WellFormed {} {} ∧
      Evaluates (Library.add {} p.graph) ⟨0, p.root⟩ {} o ∧
      WellFormedness.Sound (Library.add {} p.graph) o ∧
      Session.Steps ⟨{}, {}, {}, []⟩ [.ok (.deferred .subroutine ⟨0, 0⟩),
        .error (.fault (.of (.missingVariable "x") (some .call)))] σ ∧
      Session.Regular [.ok (.deferred .subroutine ⟨0, 0⟩),
        .error (.fault (.of (.missingVariable "x") (some .call)))] := by
  have hscope : Scope.WellFormed {} {} := Scope.all_empty
  have hread : Program.read .standard "x f defsub" =
      .ok ⟨#[.var "x", .var "f", .apply .define [1, 0]], 2⟩ := rfl
  let lib : Library := ⟨#[#[.var "x", .var "f", .apply .define [1, 0]]]⟩
  let scope : Scope := Scope.bind {} "f" (.deferred .subroutine ⟨0, 0⟩)
  have hdefine : runWith 9 .standard {} "x f defsub" ⟨{}, {}, {}, .silent⟩ =
      some ⟨.ok (.deferred .subroutine ⟨0, 0⟩), lib, ⟨scope, {}, ⟨none, 1⟩, .silent⟩⟩ := rfl
  have hcall : runWith 9 .standard lib "f call" ⟨scope, {}, {}, .silent⟩ =
      some ⟨.error (.fault (.of (.missingVariable "x") (some .call))),
        lib.add #[.var "f", .apply .call [0]], ⟨scope, {}, ⟨none, 3⟩, .silent⟩⟩ := rfl
  have hsteps := Session.Steps.cons (Session.Step.run (σ := ⟨{}, {}, {}, []⟩) hdefine)
    (.cons (.run hcall) (.nil _))
  obtain ⟨hone, hmany⟩ := read_programs_dont_go_wrong
  exact ⟨_, _, _, hread, hscope, ⟨9, rfl⟩, hone _ _ _ {} {} _ hread hscope ⟨9, rfl⟩, hsteps,
    (hmany _ _ _ hscope rfl hsteps).1⟩

end ReversePolish
