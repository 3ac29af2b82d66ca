import ReversePolish.Proofs.Layout

namespace ReversePolish

structure Scope.Later (targets : String → Prop) (before after : Scope) : Prop where
  kept : ∀ name, ¬ targets name → after.find? name = before.find? name
  bound : ∀ name, before.find? name ≠ none → after.find? name ≠ none

namespace Scope.Later

variable {targets targets' : String → Prop} {before after : Scope}

theorem refl (targets : String → Prop) (s : Scope) : Later targets s s where
  kept _ _ := rfl
  bound _ h := h

theorem bind {name : String} (h : Later targets before after) (hname : targets name) (v : Value) :
    Later targets before (after.bind name v) where
  kept other hother := by
    have hne : name ≠ other := fun he => hother (he ▸ hname)
    rw [find?_bind, if_neg hne, h.kept other hother]
  bound other hother := by
    rw [find?_bind]
    split
    · simp
    · exact h.bound other hother

theorem imp (h : Later targets before after) (hsub : ∀ name, targets name → targets' name) :
    Later targets' before after where
  kept name hname := h.kept name fun ht => hname (hsub name ht)
  bound := h.bound

end Scope.Later

theorem Invariant.later {lib : Library} (I : Invariant lib) {p : Place} {s : State} {o : Outcome}
    (hp : I.place p) (hs : I.state s) (h : Evaluates lib p s o) :
    s.scope.Later (lib.Binds I.place) o.state.scope := by
  have hend := (I.withScope (s.scope.Later (lib.Binds I.place)) fun hkept hb => hkept.bind hb _).ending
    hp ⟨hs, .refl _ _⟩ h
  exact hend.state.2

/-- An evaluation binds no names but those that are assigned to within its reach, and unbinds
none. -/
theorem only_targets_are_bound (lib : Library) (root : Place) (s : State) (o : Outcome)
    (h : Evaluates lib root s o) :
    (∀ name, ¬ lib.Binds (lib.Reach (s.scope.Entry root)) name →
      o.state.scope.find? name = s.scope.find? name) ∧
    (∀ name, s.scope.find? name ≠ none → o.state.scope.find? name ≠ none) ∧
    ∀ name, o.state.scope.find? name ≠ none →
      s.scope.find? name ≠ none ∨ lib.Binds (lib.Reach (s.scope.Entry root)) name := by
  have hlater : s.scope.Later (lib.Binds (lib.Reach (s.scope.Entry root))) o.state.scope :=
    (Provenance.invariant lib s.scope root).later (.start .root) Provenance.all_self h
  refine ⟨hlater.kept, hlater.bound, ?_⟩
  intro name hbound
  by_cases hname : lib.Binds (lib.Reach (s.scope.Entry root)) name
  · exact .inr hname
  · exact .inl (hlater.kept name hname ▸ hbound)

theorem only_targets_are_bound_call :
    ∃ body main o, Program.read .standard "nop x setq" = .ok body ∧
      Program.read .standard "f call" = .ok main ∧
      let lib := (Library.add {} body.graph).add main.graph
      let s : State := { scope := (Scope.bind {} "y" .nop).bind "f" (.deferred .subroutine ⟨0, 2⟩) }
      Evaluates lib ⟨1, main.root⟩ s o ∧
      s.scope.find? "x" = none ∧ o.state.scope.find? "x" = some .nop ∧
      lib.Binds (lib.Reach (s.scope.Entry ⟨1, main.root⟩)) "x" ∧
      ¬ lib.Binds (lib.Reach (s.scope.Entry ⟨1, main.root⟩)) "y" ∧
      o.state.scope.find? "y" = some .nop := by
  let body : Graph := #[.apply .nop [], .var "x", .apply .assign [1, 0]]
  let main : Graph := #[.var "f", .apply .call [0]]
  let lib : Library := (Library.add {} body).add main
  let scope : Scope := (Scope.bind {} "y" .nop).bind "f" (.deferred .subroutine ⟨0, 2⟩)
  have hrun : evaluate 12 lib ⟨1, 1⟩ { scope } =
      some ⟨.ok .nop, { scope := scope.bind "x" .nop, meter := ⟨none, 4⟩ }⟩ := rfl
  obtain ⟨hkept, _, hnew⟩ := only_targets_are_bound lib ⟨1, 1⟩ { scope } _ ⟨12, hrun⟩
  have hx : scope.find? "x" = none := by simp [scope]
  have hbinds := (hnew "x" (by simp)).resolve_left (fun h => h hx)
  have hfree : ∀ place, ¬ lib.Binds place "y" := by
    rintro place ⟨⟨graph, _⟩, _, target, _, _, _, _, hvar⟩
    match graph, target with
    | 0, 0 | 0, 2 | 1, 1 | 0, _ + 3 | 1, _ + 2 | _ + 2, _ => cases hvar
    | 0, 1 | 1, 0 => exact absurd (Node.var.inj (Option.some.inj hvar)) (by decide)
  exact ⟨⟨body, 2⟩, ⟨main, 1⟩, _, rfl, rfl, ⟨12, hrun⟩, hx, by simp, hbinds, hfree _,
    (hkept "y" (hfree _)).trans (by simp [scope])⟩

def Relocation.refl : Relocation where
  graph g := g
  node _ id := id

theorem Relocation.value_refl (v : Value) : refl.value v = v := by
  cases v <;> rfl

/-- The names include all that are mentioned, from the root on and from what they are bound to. -/
structure Library.Covers (lib : Library) (root : Place) (scope : Scope) (N : Set String) : Prop where
  root : ∀ p name, lib.Reach (· = root) p → lib.node? p = some (.var name) → name ∈ N
  bound : ∀ name ∈ N, ∀ origin body, scope.find? name = some (.deferred origin body) →
    ∀ p other, lib.Reach (· = body) p → lib.node? p = some (.var other) → other ∈ N

inductive Scope.EntryAmong (s : Scope) (N : Set String) (root : Place) : Place → Prop
  | root : EntryAmong s N root root
  | bound {name origin p} : name ∈ N → s.find? name = some (.deferred origin p) →
      EntryAmong s N root p

namespace Library.Covers

variable {lib : Library} {root : Place} {scope scope' : Scope} {N : Set String}

theorem var {p : Place} {name : String} (h : lib.Covers root scope N)
    (hp : lib.Reach (scope.EntryAmong N root) p) (hn : lib.node? p = some (.var name)) : name ∈ N := by
  obtain ⟨q, hq, hreach⟩ := hp.exists_start
  cases hq with
  | root => exact h.root p name hreach hn
  | bound hmem hv => exact h.bound _ hmem _ _ hv p name hreach hn

theorem binds {name : String} (h : lib.Covers root scope N)
    (hb : lib.Binds (lib.Reach (scope.EntryAmong N root)) name) : name ∈ N := by
  obtain ⟨p, op, target, rest, hp, _, hn, hvar⟩ := hb
  exact h.var (.operand hp hn List.mem_cons_self) hvar

theorem allOf (hscope : ∀ name ∈ N, scope'.find? name = scope.find? name) :
    scope'.AllOf (· ∈ N) (Value.Within fun _ => lib.Reach (scope.EntryAmong N root)) := by
  intro name hname v hv
  cases v with
  | deferred origin body => exact .start (.bound hname (hscope name hname ▸ hv))
  | _ => trivial

theorem embedding (h : lib.Covers root scope N) :
    Relocation.refl.Embedding lib lib (lib.Reach (scope.EntryAmong N root)) (· ∈ N) where
  operand := .operand
  node _ := (Relocation.map_content_eq_self (fun _ => rfl) _).symm
  missing _ _ := rfl
  injective _ _ he := he
  var := h.var

theorem later {s : State} {o : Outcome} (h : lib.Covers root scope N)
    (hscope : ∀ name ∈ N, s.scope.find? name = scope.find? name) (ho : Evaluates lib root s o) :
    s.scope.Later (· ∈ N) o.state.scope :=
  (h.embedding.invariant.later (.start .root) (allOf hscope) ho).imp fun _ => h.binds

end Library.Covers

/-- What is bound to names that are not mentioned makes no difference, and stays as it is. -/
theorem unmentioned_names_are_irrelevant (lib : Library) (root : Place) (N : Set String) (s : State)
    (scope' : Scope) (hnames : lib.Covers root s.scope N)
    (hscope : ∀ name ∈ N, scope'.find? name = s.scope.find? name) :
    ((∃ o, Returns lib root s o) ↔ ∃ o', Returns lib root { s with scope := scope' } o') ∧
    ∀ o o', Returns lib root s o → Returns lib root { s with scope := scope' } o' →
      o'.result = o.result ∧ o'.state.heap = o.state.heap ∧ o'.state.meter = o.state.meter ∧
      o'.state.printer = o.state.printer ∧
      (∀ name ∈ N, o'.state.scope.find? name = o.state.scope.find? name) ∧
      ∀ name, name ∉ N → o.state.scope.find? name = s.scope.find? name ∧
        o'.state.scope.find? name = scope'.find? name := by
  have hvalue : Relocation.refl.value = id := funext Relocation.value_refl
  have halike : Relocation.refl.Alike (· ∈ N) s { s with scope := scope' } := by
    refine ⟨fun name hname => ?_, rfl, rfl, rfl⟩
    rw [hvalue, Option.map_id]
    exact hscope name hname
  obtain ⟨hiff, hsame⟩ := hnames.embedding.returns_alike (.start .root)
    (Library.Covers.allOf fun _ _ => rfl) halike
  refine ⟨hiff, fun o o' ho ho' => ?_⟩
  obtain ⟨hresult, hleft, hheap, hmeter, hprinter⟩ := hsame o o' ho ho'
  rw [hvalue, Except.map_id] at hresult
  have hin : ∀ name ∈ N, o'.state.scope.find? name = o.state.scope.find? name := by
    intro name hname
    rw [hleft name hname, hvalue, Option.map_id]
    rfl
  have hout := (hnames.later (fun _ _ => rfl) ho.evaluates).kept
  have hout' := (hnames.later hscope ho'.evaluates).kept
  exact ⟨hresult, hheap, hmeter, hprinter, hin, fun name hname => ⟨hout name hname, hout' name hname⟩⟩

theorem unmentioned_names_are_irrelevant_call :
    ∃ body other main o o', Program.read .standard "nop x setq" = .ok body ∧
      Program.read .standard "z" = .ok other ∧ Program.read .standard "f call" = .ok main ∧
      let lib := ((Library.add {} body.graph).add other.graph).add main.graph
      let scope := Scope.bind {} "f" (.deferred .subroutine ⟨0, 2⟩)
      let scope' := scope.bind "y" (.deferred .subroutine ⟨1, 0⟩)
      lib.Covers ⟨2, main.root⟩ scope {"f", "x"} ∧
      Returns lib ⟨2, main.root⟩ { scope } o ∧ o.state.scope.find? "y" = none ∧
      Returns lib ⟨2, main.root⟩ { scope := scope' } o' ∧ o'.result = .ok .nop ∧
      o'.state.scope.find? "x" = some .nop ∧
      o'.state.scope.find? "y" = some (.deferred .subroutine ⟨1, 0⟩) := by
  let body : Graph := #[.apply .nop [], .var "x", .apply .assign [1, 0]]
  let other : Graph := #[.var "z"]
  let main : Graph := #[.var "f", .apply .call [0]]
  have hbody : Program.read .standard "nop x setq" = .ok ⟨body, 2⟩ := rfl
  have hother : Program.read .standard "z" = .ok ⟨other, 0⟩ := rfl
  have hmain : Program.read .standard "f call" = .ok ⟨main, 1⟩ := rfl
  let lib : Library := ((Library.add {} body).add other).add main
  let scope : Scope := Scope.bind {} "f" (.deferred .subroutine ⟨0, 2⟩)
  let scope' : Scope := scope.bind "y" (.deferred .subroutine ⟨1, 0⟩)
  let o : Outcome := ⟨.ok .nop, { scope := scope.bind "x" .nop, meter := ⟨none, 4⟩ }⟩
  have hvar : ∀ p name, p.graph ≠ 1 → lib.node? p = some (.var name) →
      name ∈ ({"f", "x"} : Set String) := by
    rintro ⟨graph, id⟩ name hne hn
    match graph, id with
    | 0, 0 | 0, 2 | 2, 1 | 0, _ + 3 | 2, _ + 2 | _ + 3, _ => cases hn
    | 0, 1 | 2, 0 => cases hn; simp
    | 1, _ => exact absurd rfl hne
  have hcovers : lib.Covers ⟨2, 1⟩ scope {"f", "x"} := by
    refine ⟨fun p name hp => hvar p name (by simp [hp.graph_eq]), ?_⟩
    intro name _ origin q hq p other hp
    have hgraph : q.graph = 0 := by
      simp only [scope, Scope.find?_bind, Scope.find?_empty] at hq
      split at hq
      · cases hq; rfl
      · cases hq
    exact hvar p other (by simp [hp.graph_eq, hgraph])
  have hg := (Program.wellFormed_of_read hmain).1.descending
  have hplace : lib.Descends ⟨2, 1⟩ := Library.descends_next _ hg 1
  have hsubroutine : lib.Descends ⟨0, 2⟩ :=
    ((Library.descends_next {} (Program.wellFormed_of_read hbody).1.descending 2).add
      (Program.wellFormed_of_read hother).1.descending).add hg
  have hdescends : scope.Descends lib := Scope.all_empty.bind "f" hsubroutine
  have hreturns : Returns lib ⟨2, 1⟩ { scope } o :=
    (Library.legible hplace hdescends).returns ⟨12, rfl⟩
  obtain ⟨hiff, hsame⟩ := unmentioned_names_are_irrelevant lib ⟨2, 1⟩ {"f", "x"} { scope } scope'
    hcovers (by intro name hname; obtain rfl | rfl := hname <;> simp [scope'])
  obtain ⟨o', hreturns'⟩ := hiff.1 ⟨o, hreturns⟩
  obtain ⟨hresult, _, _, _, hin, hout⟩ := hsame o o' hreturns hreturns'
  exact ⟨_, _, _, o, o', hbody, hother, hmain, hcovers, hreturns, by simp [o, scope], hreturns',
    hresult, (hin "x" (by simp)).trans (by simp [o]),
    (hout "y" (by simp)).2.trans (by simp [scope'])⟩

end ReversePolish
