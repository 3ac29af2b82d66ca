import ReversePolish.Proofs.Provenance
import ReversePolish.Proofs.Relocation

namespace ReversePolish

namespace Relocation

variable {ρ : Relocation} {lib lib' : Library} {seen : String → Prop} {m m' : Machine} {p q : Place}
  {v : Value} {graph : Nat}

section Squares

theorem target?_content (n : Node) : (ρ.content graph n).target? = n.target?.map (ρ.node graph) := by
  match n with
  | .var _ | .num _ | .apply _ [] => rfl
  | .apply op (x :: xs) =>
    simp only [content, List.map_cons, Node.target?, List.length_map]
    split <;> rfl

theorem target?_place (hnode : lib'.node? (ρ.place p) = (lib.node? p).map (ρ.content p.graph)) :
    lib'.target? (ρ.place p) = (lib.target? p).map ρ.place := by
  rw [Library.target?, Library.target?, hnode]
  cases lib.node? p with
  | none => rfl
  | some n =>
    simp only [Option.map_some, Option.bind_some, target?_content, Option.map_map]
    rfl

theorem inspected?_pending (pending : Pending) :
    (ρ.pending graph pending).inspected? (ρ.value v) =
      (pending.inspected? v).map (ρ.node graph) := by
  cases pending with
  | length target =>
    simp only [Relocation.pending, Pending.inspected?, toInteger_value]
    split
    · split <;> rfl
    · rfl
  | _ => rfl

theorem Agree.visited? (h : ρ.Agree seen m m') : m'.visited? = m.visited?.map ρ.place := by
  obtain ⟨control, frames, s⟩ := m
  obtain ⟨_, _, s'⟩ := m'
  obtain ⟨rfl, rfl, hs⟩ := h
  cases control with
  | enter p =>
    simp only [Machine.visited?, Relocation.control, hs.tick.meter]
    cases s.tick.meter.overrun? <;> rfl
  | deliver v => rfl

theorem Agree.printed? (h : ρ.Agree seen m m') : m'.printed? = m.printed?.map ρ.value := by
  obtain ⟨control, frames, s⟩ := m
  obtain ⟨_, _, s'⟩ := m'
  obtain ⟨rfl, rfl, _⟩ := h
  match control, frames with
  | .enter p, _ | .deliver v, [] => rfl
  | .deliver v, ⟨graph, op, pending⟩ :: fs => cases pending <;> rfl

theorem Agree.inspected? (h : ρ.Agree seen m m')
    (hnode : ∀ p, m.visited? = some p →
      lib'.node? (ρ.place p) = (lib.node? p).map (ρ.content p.graph)) :
    m'.inspected? lib' = (m.inspected? lib).map ρ.place := by
  have hvisited := h.visited?
  obtain ⟨control, frames, s⟩ := m
  obtain ⟨_, _, s'⟩ := m'
  obtain ⟨rfl, rfl, _⟩ := h
  cases control with
  | enter p =>
    change Option.bind _ lib'.target? = (Option.bind _ lib.target?).map ρ.place
    rw [hvisited]
    cases hp : Machine.visited? ⟨.enter p, frames, s⟩ with
    | none => rfl
    | some q => exact target?_place (hnode q hp)
  | deliver v =>
    cases frames with
    | nil => rfl
    | cons f fs =>
      simp only [Machine.inspected?, Relocation.control, List.map_cons, frame, inspected?_pending]
      cases f.pending.inspected? v <;> rfl

end Squares

theorem value_eq_deferred {origin : Origin} {body : Place}
    (h : ρ.value v = .deferred origin body) :
    ∃ body', v = .deferred origin body' ∧ ρ.place body' = body := by
  cases v with
  | deferred o p =>
    obtain ⟨rfl, rfl⟩ : o = origin ∧ ρ.place p = body := by simpa [value] using h
    exact ⟨p, rfl, rfl⟩
  | _ => cases h

theorem content_eq_var {n : Node} {name : String} :
    ρ.content graph n = .var name ↔ n = .var name := by
  cases n <;> simp [content]

theorem Agree.writes_iff (h : ρ.Agree seen m m')
    (hvisited : ∀ p, m.visited? = some p →
      lib'.node? (ρ.place p) = (lib.node? p).map (ρ.content p.graph))
    (hinspected : ∀ p, m.inspected? lib = some p →
      lib'.node? (ρ.place p) = (lib.node? p).map (ρ.content p.graph)) :
    m'.Writes lib' q ↔ ∃ p, m.Writes lib p ∧ ρ.place p = q := by
  have hsquare := h.inspected? hvisited
  constructor
  · intro hq
    cases hq with
    | printed hv =>
      rw [h.printed?] at hv
      obtain ⟨v, hv', he⟩ := Option.map_eq_some_iff.1 hv
      obtain ⟨body, rfl, rfl⟩ := value_eq_deferred he
      exact ⟨body, .printed hv', rfl⟩
    | refused hq hn hvar =>
      rw [hsquare] at hq
      obtain ⟨p, hp, rfl⟩ := Option.map_eq_some_iff.1 hq
      rw [hinspected p hp] at hn
      obtain ⟨n, hn', rfl⟩ := Option.map_eq_some_iff.1 hn
      exact ⟨p, .refused hp hn' fun name he => hvar name (content_eq_var.2 he), rfl⟩
  · rintro ⟨p, hp, rfl⟩
    cases hp with
    | printed hv => exact .printed (by rw [h.printed?, hv]; rfl)
    | refused hp hn hvar =>
      refine .refused (n := ρ.content p.graph _) (by rw [hsquare, hp]; rfl) ?_
        fun name he => hvar name (content_eq_var.1 he)
      rw [hinspected p hp, hn]
      rfl

namespace Embedding

variable {place : Place → Prop} (hρ : ρ.Embedding lib lib' place seen)

include hρ

theorem unfolds {id : Nat} {t : Tree} (h : (lib.graph graph).Unfolds id t) :
    place ⟨graph, id⟩ → (lib'.graph (ρ.graph graph)).Unfolds (ρ.node graph id) t := by
  induction h with
  | @missing id hn =>
    intro hp
    have hnode := hρ.node hp
    rw [show lib.node? ⟨graph, id⟩ = none from hn] at hnode
    have hid : ρ.node graph id = id := hρ.missing hp hn
    rw [hid]
    exact .missing (hid ▸ hnode)
  | @var id name hn =>
    intro hp
    have hnode := hρ.node hp
    rw [show lib.node? ⟨graph, id⟩ = _ from hn] at hnode
    exact .var hnode
  | @num id value hn =>
    intro hp
    have hnode := hρ.node hp
    rw [show lib.node? ⟨graph, id⟩ = _ from hn] at hnode
    exact .num hnode
  | @apply id op operands tree hn _ ih =>
    intro hp
    have hnode := hρ.node hp
    rw [show lib.node? ⟨graph, id⟩ = _ from hn] at hnode
    have hops : ∀ x ∈ operands,
        (lib'.graph (ρ.graph graph)).Unfolds (ρ.node graph x) (tree x) :=
      fun x hx => ih x hx (hρ.operand hp hn hx)
    -- The trees of the new operands are what the new graph unfolds to.
    have htrees : operands.map tree =
        (operands.map (ρ.node graph)).map (lib'.graph (ρ.graph graph)).unfold := by
      rw [List.map_map]
      apply List.map_congr_left
      intro x hx
      exact (hops x hx).unfold_eq.symm
    rw [htrees]
    refine .apply _ hnode ?_
    intro y hy
    obtain ⟨x, hx, rfl⟩ := List.mem_map.1 hy
    rw [(hops x hx).unfold_eq]
    exact hops x hx

theorem of_unfolds {id : Nat} {t : Tree} (h : (lib'.graph (ρ.graph graph)).Unfolds id t) :
    ∀ x, place ⟨graph, x⟩ → ρ.node graph x = id → (lib.graph graph).Unfolds x t := by
  have hnode : ∀ x, place ⟨graph, x⟩ → (lib'.graph (ρ.graph graph))[ρ.node graph x]? =
      (lib.node? ⟨graph, x⟩).map (ρ.content graph) := fun x hp => hρ.node hp
  induction h with
  | missing hn =>
    rintro x hp rfl
    rw [hnode x hp, Option.map_eq_none_iff] at hn
    rw [show ρ.node graph x = x from hρ.missing hp hn]
    exact .missing hn
  | var hn =>
    rintro x hp rfl
    rw [hnode x hp] at hn
    obtain ⟨n, hn', hc⟩ := Option.map_eq_some_iff.1 hn
    rw [content_eq_var.1 hc] at hn'
    exact .var hn'
  | num hn =>
    rintro x hp rfl
    rw [hnode x hp] at hn
    obtain ⟨n, hn', hc⟩ := Option.map_eq_some_iff.1 hn
    cases n with
    | num value =>
      obtain rfl := Node.num.inj hc
      exact .num hn'
    | _ => cases hc
  | apply tree hn _ ih =>
    rintro x hp rfl
    rw [hnode x hp] at hn
    obtain ⟨n, hn', hc⟩ := Option.map_eq_some_iff.1 hn
    cases n with
    | apply op operands =>
      obtain ⟨rfl, rfl⟩ := Node.apply.inj hc
      rw [List.map_map]
      refine .apply _ hn' ?_
      intro y hy
      exact ih (ρ.node graph y) (List.mem_map_of_mem hy) y (hρ.operand hp hn' hy) rfl
    | _ => cases hc

theorem endless_iff (hp : place p) : lib'.Endless (ρ.place p) ↔ lib.Endless p := by
  rw [Library.Endless, Library.Endless, not_iff_not]
  constructor
  · rintro ⟨t, ht⟩
    exact ⟨t, hρ.of_unfolds ht p.node hp rfl⟩
  · rintro ⟨t, ht⟩
    exact ⟨t, hρ.unfolds ht hp⟩

theorem render_eq (hp : place p) (h : ¬ lib.Endless p) :
    lib'.render (ρ.place p) = lib.render p := by
  obtain ⟨t, ht⟩ := not_not.1 h
  have ht' := hρ.unfolds ht hp
  rw [Library.render, Library.render, Graph.render, Graph.render, ht.unfold_eq]
  exact congrArg Tree.render ht'.unfold_eq

theorem writes_iff (hm : hρ.invariant.Holds m) (h : ρ.Agree seen m m') :
    m'.Writes lib' q ↔ ∃ p, m.Writes lib p ∧ ρ.place p = q :=
  h.writes_iff (fun _ hp => hρ.node (hm.visited hp)) fun _ hp => hρ.node (hm.inspected hp)

theorem hangs_iff (hm : hρ.invariant.Holds m) (h : ρ.Agree seen m m') :
    m'.Hangs lib' ↔ m.Hangs lib := by
  constructor
  · rintro ⟨_, hq, hendless⟩
    obtain ⟨p, hp, rfl⟩ := (hρ.writes_iff hm h).1 hq
    exact ⟨p, hp, (hρ.endless_iff (hρ.written hm hp)).1 hendless⟩
  · rintro ⟨p, hp, hendless⟩
    exact ⟨ρ.place p, (hρ.writes_iff hm h).2 ⟨p, hp, rfl⟩,
      (hρ.endless_iff (hρ.written hm hp)).2 hendless⟩

theorem returns_alike {s s' : State} (hp : place p)
    (hscope : s.scope.AllOf seen (Value.Within fun _ => place)) (hs : ρ.Alike seen s s') :
    ((∃ o, Returns lib p s o) ↔ ∃ o', Returns lib' (ρ.place p) s' o') ∧
      ∀ o o', Returns lib p s o → Returns lib' (ρ.place p) s' o' → ρ.Same seen o o' := by
  have hstart : hρ.invariant.Holds { control := .enter p, state := s } :=
    Invariant.holds_start hp hscope
  refine Machine.Returns.alike (R := fun m m' => hρ.invariant.Holds m ∧ ρ.Agree seen m m') ?_ ?_
    ⟨hstart, rfl, rfl, hs⟩
  · rintro m m' ⟨hm, hagree⟩
    exact hρ.hangs_iff hm hagree
  · rintro m m' ⟨hm, hagree⟩ hfree
    have hmatches : ρ.Matches lib lib' seen m := hρ.matched hm fun q hq =>
      hρ.render_eq (hρ.written hm hq) fun hendless => hfree ⟨q, hq, hendless⟩
    exact (rel_step hmatches hagree).with_left (Invariant.all_step hm)

end Embedding

def renumber (a a' : Nat) (φ : Nat → Nat) : Relocation where
  graph g := if g = a then a' else g
  node g id := if g = a then φ id else id

section Renumber

variable {a a' : Nat} {φ : Nat → Nat}

theorem place_renumber_self (x : Nat) : (renumber a a' φ).place ⟨a, x⟩ = ⟨a', φ x⟩ := by
  simp [place, renumber]

theorem place_renumber_of_ne (h : p.graph ≠ a) : (renumber a a' φ).place p = p := by
  simp [place, renumber, h]

end Renumber

end Relocation

def Node.relabel (φ : Nat → Nat) : Node → Node
  | .apply op operands => .apply op (operands.map φ)
  | n => n

/-- The nodes that are reached from the root stand in another graph too, under numbers of their
own. -/
structure Library.Copies (lib : Library) (a root a' : Nat) (φ : Nat → Nat) : Prop where
  node : ∀ x, lib.Reach (· = ⟨a, root⟩) ⟨a, x⟩ →
    ∃ n, lib.node? ⟨a, x⟩ = some n ∧ lib.node? ⟨a', φ x⟩ = some (n.relabel φ)
  injective : ∀ x y, lib.Reach (· = ⟨a, root⟩) ⟨a, x⟩ → lib.Reach (· = ⟨a, root⟩) ⟨a, y⟩ →
    φ x = φ y → x = y

namespace Relocation

variable {lib : Library} {a a' root : Nat} {φ : Nat → Nat}

theorem content_renumber_self (n : Node) : (renumber a a' φ).content a n = n.relabel φ := by
  cases n <;> simp [content, renumber, Node.relabel]

def Inside (lib : Library) (a root a' : Nat) (p : Place) : Prop :=
  p.graph = a ∧ lib.Reach (· = ⟨a, root⟩) p ∨ p.graph ≠ a ∧ p.graph ≠ a'

theorem embedding_renumber (h : lib.Copies a root a' φ) :
    (renumber a a' φ).Embedding lib lib (Inside lib a root a') fun _ => True where
  operand := by
    rintro ⟨g, id⟩ op operands x (⟨rfl, hp⟩ | hp) hn hx
    · exact .inl ⟨rfl, .operand hp hn hx⟩
    · exact .inr hp
  node := by
    rintro ⟨g, id⟩ (⟨rfl, hp⟩ | ⟨hne, _⟩)
    · obtain ⟨n, hn, hn'⟩ := h.node id hp
      rw [place_renumber_self, hn, hn', Option.map_some, content_renumber_self]
    · rw [place_renumber_of_ne hne, map_content_eq_self fun x => if_neg hne]
  missing := by
    rintro ⟨g, id⟩ (⟨rfl, hp⟩ | ⟨hne, _⟩) hnone
    · obtain ⟨n, hn, _⟩ := h.node id hp
      rw [hn] at hnone
      cases hnone
    · rw [place_renumber_of_ne hne]
  injective := by
    rintro ⟨g, x⟩ ⟨g', y⟩ (⟨rfl, hx⟩ | ⟨hne, hfree⟩) (⟨rfl, hy⟩ | ⟨hne', hfree'⟩) he
    · rw [place_renumber_self, place_renumber_self] at he
      rw [h.injective x y hx hy (Place.mk.inj he).2]
    · rw [place_renumber_self, place_renumber_of_ne hne'] at he
      exact absurd (Place.mk.inj he).1.symm hfree'
    · rw [place_renumber_self, place_renumber_of_ne hne] at he
      exact absurd (Place.mk.inj he).1 hfree
    · rwa [place_renumber_of_ne hne, place_renumber_of_ne hne'] at he
  var _ _ := trivial

theorem alike_of_value {ρ : Relocation} {s : State}
    (hs : s.scope.All (Value.Within fun _ body => ρ.place body = body)) :
    ρ.Alike (fun _ => True) s s where
  scope name _ := by
    cases hv : s.scope.find? name with
    | none => rfl
    | some v => rw [Option.map_some, value_eq_self (hs name v hv)]
  heap := rfl
  meter := rfl
  printer := rfl

end Relocation

theorem Library.Reach.node_le {lib : Library} {p q : Place} (hg : (lib.graph q.graph).WellFormed)
    (h : lib.Reach (· = q) p) : p.node ≤ q.node := by
  induction h with
  | start h => rw [h]
  | @operand p op operands x hp hn hx ih =>
    have hlt : x < p.node := (hg p.node op operands (hp.graph_eq ▸ hn)).2 x hx
    exact Nat.le_trans hlt.le ih

/-- Evaluation does not depend on the numbers of the nodes. -/
theorem layout_is_irrelevant (lib : Library) (a a' root : Nat) (φ : Nat → Nat) (s : State)
    (hcopies : lib.Copies a root a' φ)
    (hscope : s.scope.All (Value.Within fun _ body => body.graph ≠ a ∧ body.graph ≠ a')) :
    ((∃ o, Returns lib ⟨a, root⟩ s o) ↔ ∃ o', Returns lib ⟨a', φ root⟩ s o') ∧
    ∀ o o', Returns lib ⟨a, root⟩ s o → Returns lib ⟨a', φ root⟩ s o' →
      o'.result = o.result.map (Relocation.renumber a a' φ).value ∧
      (∀ name, o'.state.scope.find? name =
        (o.state.scope.find? name).map (Relocation.renumber a a' φ).value) ∧
      o'.state.heap = o.state.heap ∧ o'.state.meter = o.state.meter ∧
      o'.state.printer = o.state.printer := by
  have hplaces : s.scope.All (Value.Within fun _ => Relocation.Inside lib a root a') :=
    hscope.imp fun _ hv => hv.imp fun _ _ => .inr
  have halike : (Relocation.renumber a a' φ).Alike (fun _ => True) s s :=
    Relocation.alike_of_value
      (hscope.imp fun _ hv => hv.imp fun _ _ hbody => Relocation.place_renumber_of_ne hbody.1)
  obtain ⟨hiff, hsame⟩ := (Relocation.embedding_renumber hcopies).returns_alike
    (p := ⟨a, root⟩) (.inl ⟨rfl, .start rfl⟩) (hplaces.allOf _) halike
  rw [Relocation.place_renumber_self] at hiff hsame
  refine ⟨hiff, fun o o' ho ho' => ?_⟩
  obtain ⟨hresult, hleft, hheap, hmeter, hprinter⟩ := hsame o o' ho ho'
  exact ⟨hresult, fun name => hleft name trivial, hheap, hmeter, hprinter⟩

theorem layout_is_irrelevant_reversed :
    ∃ p o', Program.read .standard "nop x setq f defsub print" = .ok p ∧
      let copy : Graph := #[.apply .print [1], .apply .define [2, 3], .var "f", .apply .assign [4, 5],
        .var "x", .apply .nop [], .apply .nop []]
      let lib := (Library.add {} p.graph).add copy
      lib.Copies 0 p.root 1 (5 - ·) ∧
      Returns lib ⟨1, 0⟩ { printer := .buffer "" } o' ∧
      o'.result = .ok (.deferred .subroutine ⟨1, 3⟩) ∧
      o'.state.scope.find? "f" = some (.deferred .subroutine ⟨1, 3⟩) ∧
      o'.state.printer.captured = "<subroutine (setq x (nop))>\n" := by
  let g : Graph := #[.apply .nop [], .var "x", .apply .assign [1, 0], .var "f",
    .apply .define [3, 2], .apply .print [4]]
  let copy : Graph := #[.apply .print [1], .apply .define [2, 3], .var "f", .apply .assign [4, 5],
    .var "x", .apply .nop [], .apply .nop []]
  have hread : Program.read .standard "nop x setq f defsub print" = .ok ⟨g, 5⟩ := rfl
  let lib : Library := (Library.add {} g).add copy
  have hg : (lib.graph 0).WellFormed := (Program.wellFormed_of_read hread).1
  have hle : ∀ x, lib.Reach (· = ⟨0, 5⟩) ⟨0, x⟩ → x ≤ 5 := fun x hx => hx.node_le hg
  have hcopies : lib.Copies 0 5 1 (5 - ·) := by
    refine ⟨?_, ?_⟩
    · intro x hx
      match x, hle x hx with
      | 0, _ | 1, _ | 2, _ | 3, _ | 4, _ | 5, _ => exact ⟨_, rfl, rfl⟩
    · intro x y hx hy he
      have hlex := hle x hx
      have hley := hle y hy
      omega
  let s : State := { printer := .buffer "" }
  let body : Value := .deferred .subroutine ⟨0, 2⟩
  let o : Outcome :=
    ⟨.ok body, ⟨Scope.bind {} "f" body, {}, ⟨none, 2⟩, .buffer "<subroutine (setq x (nop))>\n"⟩⟩
  have hreturns : Returns lib ⟨0, 5⟩ s o :=
    (Library.legible (p := ⟨0, 5⟩) (s := s) hg.descending Scope.all_empty).returns ⟨12, rfl⟩
  obtain ⟨hiff, hsame⟩ := layout_is_irrelevant lib 0 1 5 (5 - ·) s hcopies Scope.all_empty
  obtain ⟨o', hreturns'⟩ := hiff.1 ⟨o, hreturns⟩
  obtain ⟨hresult, hscope, _, _, hprinter⟩ := hsame o o' hreturns hreturns'
  refine ⟨⟨g, 5⟩, o', hread, hcopies, hreturns', hresult, (hscope "f").trans ?_, by rw [hprinter]; rfl⟩
  simp [o, body, Relocation.value, Relocation.place_renumber_self]

/-- The next step looks at none of these nodes of the graph, and prints nothing that is deferred. -/
structure Machine.Avoids (lib : Library) (a : Nat) (D : Set Nat) (m : Machine) : Prop where
  visited : ∀ id, m.visited? = some ⟨a, id⟩ → id ∉ D
  inspected : ∀ id, m.inspected? lib = some ⟨a, id⟩ → id ∉ D
  printed : ∀ origin body, m.printed? ≠ some (.deferred origin body)

theorem Machine.Avoids.not_writes {lib : Library} {a : Nat} {D : Set Nat} {m : Machine} {o : Outcome}
    (hm : m.Avoids lib a D) (h : Ends lib m o)
    (ho : ∀ f, o.result = .error f → f.cause.category ≠ .notAVariable) (q : Place) :
    ¬ m.Writes lib q := by
  intro hq
  cases hq with
  | printed hv => exact hm.printed _ _ hv
  | refused hq hn hvar =>
    obtain ⟨op, hs⟩ := step_of_refused hq hn hvar
    obtain rfl := h.unique (.of_done hs)
    exact ho _ rfl rfl

namespace Relocation

variable {lib : Library} {a a' : Nat} {D : Set Nat} {m m' : Machine} {p : Place}

def Beside (a a' : Nat) (p : Place) : Prop :=
  p.graph = a ∨ p.graph ≠ a'

def beside (lib : Library) (a a' : Nat) : Invariant lib :=
  .ofPlaces (Beside a a') fun hp _ _ => hp

theorem injective_regraph {q : Place} (hp : Beside a a' p) (hq : Beside a a' q)
    (h : (regraph a a').place p = (regraph a a').place q) : p = q := by
  obtain ⟨g, x⟩ := p
  obtain ⟨g', y⟩ := q
  by_cases hg : g = a
  · subst hg
    by_cases hg' : g' = g
    · subst hg'
      rw [place_regraph_self, place_regraph_self] at h
      rw [(Place.mk.inj h).2]
    · rw [place_regraph_self, place_regraph_of_ne hg'] at h
      exact absurd (Place.mk.inj h).1.symm (hq.resolve_left hg')
  · rw [place_regraph_of_ne (p := ⟨g, x⟩) hg] at h
    by_cases hg' : g' = a
    · subst hg'
      rw [place_regraph_self] at h
      exact absurd (Place.mk.inj h).1 (hp.resolve_left hg)
    · rwa [place_regraph_of_ne (p := ⟨g', y⟩) hg'] at h

theorem node?_regraph (hsame : ∀ id ∉ D, lib.node? ⟨a', id⟩ = lib.node? ⟨a, id⟩)
    (hp : ∀ id, p = ⟨a, id⟩ → id ∉ D) :
    lib.node? ((regraph a a').place p) = (lib.node? p).map ((regraph a a').content p.graph) := by
  rw [map_content_eq_self fun _ => rfl]
  obtain ⟨g, id⟩ := p
  by_cases hg : g = a
  · subst hg
    rw [place_regraph_self, hsame id (hp id rfl)]
  · rw [place_regraph_of_ne hg]

theorem matches_regraph (hsame : ∀ id ∉ D, lib.node? ⟨a', id⟩ = lib.node? ⟨a, id⟩)
    (hm : (beside lib a a').Holds m) (havoids : m.Avoids lib a D) (hsilent : ∀ q, ¬ m.Writes lib q) :
    (regraph a a').Matches lib lib (fun _ => True) m where
  node p hp := node?_regraph hsame fun id he => havoids.visited id (he ▸ hp)
  missing _ _ _ := rfl
  var _ _ _ _ := trivial
  target q op hq := by
    refine targetName_place (node?_regraph hsame fun id he => havoids.inspected id (he ▸ hq))
      (fun _ => rfl) ?_ op
    intro n hn hvar
    exact absurd (.refused hq hn hvar) (hsilent q)
  line v hv := by
    apply render_value
    rintro origin body rfl
    exact absurd hv (havoids.printed origin body)
  equal vs hvs x hx y hy :=
    equal_value injective_regraph (hm.combined hvs x hx) (hm.combined hvs y hy)

theorem not_hangs_regraph (hsame : ∀ id ∉ D, lib.node? ⟨a', id⟩ = lib.node? ⟨a, id⟩)
    (havoids : m.Avoids lib a D) (hsilent : ∀ q, ¬ m.Writes lib q)
    (h : (regraph a a').Agree (fun _ => True) m m') : ¬ m'.Hangs lib := by
  rintro ⟨_, hq, _⟩
  obtain ⟨p, hp, _⟩ := (h.writes_iff
    (fun p hp => node?_regraph hsame fun id he => havoids.visited id (he ▸ hp))
    fun p hp => node?_regraph hsame fun id he => havoids.inspected id (he ▸ hp)).1 hq
  exact hsilent p hp

end Relocation

/-- Nodes that an evaluation does not look at may be anything. -/
theorem unvisited_nodes_are_irrelevant (lib : Library) (a a' root : Nat) (D : Set Nat) (s : State)
    (o : Outcome) (hsame : ∀ id ∉ D, lib.node? ⟨a', id⟩ = lib.node? ⟨a, id⟩)
    (hscope : s.scope.All (Value.Within fun _ body => body.graph ≠ a ∧ body.graph ≠ a'))
    (h : Evaluates lib ⟨a, root⟩ s o)
    (havoids : ∀ m, Machine.Reaches lib { control := .enter ⟨a, root⟩, state := s } m →
      m.Avoids lib a D)
    (hresult : ∀ f, o.result = .error f → f.cause.category ≠ .notAVariable) :
    ∃ o', Returns lib ⟨a', root⟩ s o' ∧
      o'.result = o.result.map (Relocation.regraph a a').value ∧
      (∀ name, o'.state.scope.find? name =
        (o.state.scope.find? name).map (Relocation.regraph a a').value) ∧
      o'.state.heap = o.state.heap ∧ o'.state.meter = o.state.meter ∧
      o'.state.printer = o.state.printer := by
  let ρ := Relocation.regraph a a'
  let start : Machine := { control := .enter ⟨a, root⟩, state := s }
  let start' : Machine := { control := .enter ⟨a', root⟩, state := s }
  have hholds : (Relocation.beside lib a a').Holds start :=
    Invariant.holds_start (.inl rfl) (hscope.imp fun _ hv => hv.imp fun _ _ hbody => .inr hbody.2)
  have hsilent : ∀ m, Machine.Reaches lib start m → ∀ q, ¬ m.Writes lib q := fun m hm =>
    (havoids m hm).not_writes (hm.ends_of h.ends) hresult
  have hreturns : Machine.Returns lib start o :=
    ⟨h.ends, fun m hm ⟨q, hq, _⟩ => hsilent m hm q hq⟩
  have hstart : ρ.Agree (fun _ => True) start start' :=
    ⟨congrArg Control.enter (Relocation.place_regraph_self a a' root).symm, rfl,
      Relocation.alike_of_value
        (hscope.imp fun _ hv => hv.imp fun _ _ hbody => Relocation.place_regraph_of_ne hbody.1)⟩
  have hhangs : ∀ m m', Machine.Reaches lib start m ∧ ρ.Agree (fun _ => True) m m' →
      m'.Hangs lib → m.Hangs lib := by
    rintro m m' ⟨hm, hagree⟩ hm'
    exact absurd hm' (Relocation.not_hangs_regraph hsame (havoids m hm) (hsilent m hm) hagree)
  have hstep : ∀ m m', Machine.Reaches lib start m ∧ ρ.Agree (fun _ => True) m m' →
      ¬ m.Hangs lib → Turn.Rel (fun m m' => Machine.Reaches lib start m ∧
        ρ.Agree (fun _ => True) m m') (ρ.Same fun _ => True) (m.step lib) (m'.step lib) := by
    rintro m m' ⟨hm, hagree⟩ _
    have hmatches : ρ.Matches lib lib (fun _ => True) m :=
      Relocation.matches_regraph hsame (hholds.reaches hm) (havoids m hm) (hsilent m hm)
    exact (Relocation.rel_step hmatches hagree).with_left hm.all_step
  obtain ⟨o', ho', hsame'⟩ := hreturns.rel hhangs hstep ⟨.refl, hstart⟩
  exact ⟨o', ho', hsame'.result, fun name => hsame'.state.scope name trivial, hsame'.state.heap,
    hsame'.state.meter, hsame'.state.printer⟩

namespace Machine

variable {lib : Library} {m n : Machine} {o : Outcome} {fuel a : Nat} {ids : List Nat}

def trace (lib : Library) : Nat → Machine → List Machine
  | 0, _ => []
  | fuel + 1, m =>
    m :: match m.step lib with
      | .next m' => trace lib fuel m'
      | .done _ => []

theorem Reaches.mem_trace (hn : Reaches lib m n) (h : run lib fuel m = some o) :
    n ∈ trace lib fuel m := by
  induction fuel generalizing m with
  | zero => cases h
  | succ fuel ih =>
    obtain rfl | ⟨m', hs, hm'⟩ := Relation.ReflTransGen.cases_head hn
    · exact List.mem_cons_self
    · rw [run_succ_of_next hs] at h
      simp only [trace, hs]
      exact List.mem_cons_of_mem _ (ih hm' h)

def skips (lib : Library) (a : Nat) (ids : List Nat) (m : Machine) : Bool :=
  m.printed?.isNone &&
    (m.visited?.toList ++ (m.inspected? lib).toList).all fun p => p.graph != a || !ids.contains p.node

theorem avoids_of_skips {D : Set Nat} (h : m.skips lib a ids = true) (hD : ∀ id ∈ D, id ∈ ids) :
    m.Avoids lib a D := by
  obtain ⟨hprinted, hlooked⟩ := Bool.and_eq_true_iff.1 h
  have hids : ∀ id, ⟨a, id⟩ ∈ m.visited?.toList ++ (m.inspected? lib).toList → id ∉ D := by
    intro id hid hmem
    have hnot : id ∉ ids := by simpa using List.all_eq_true.1 hlooked ⟨a, id⟩ hid
    exact hnot (hD id hmem)
  refine ⟨fun id hid => hids id (by simp [hid]), fun id hid => hids id (by simp [hid]), ?_⟩
  intro origin body hv
  rw [hv] at hprinted
  cases hprinted

end Machine

theorem unvisited_nodes_are_irrelevant_dangling :
    ∃ p o', Program.read .standard "a f defsub b c while nop d c if prog3" = .ok p ∧
      let changed : Graph := #[.apply .add [77], .var "f", .apply .define [1, 0], .apply .call [88],
        .var "c", .apply .whileLoop [4, 3], .apply .nop [], .apply .assign [99], .var "c",
        .apply .branch [8, 7, 6], .apply .prog3 [9, 5, 2]]
      let lib := (Library.add {} p.graph).add changed
      let s : State := { scope := Scope.bind {} "c" (.boolean false) }
      (∀ m, Machine.Reaches lib { control := .enter ⟨0, p.root⟩, state := s } m →
        m.Avoids lib 0 {0, 3, 7}) ∧
      Returns lib ⟨1, p.root⟩ s o' ∧ o'.result = .ok (.deferred .subroutine ⟨1, 0⟩) ∧
      o'.state.scope.find? "f" = some (.deferred .subroutine ⟨1, 0⟩) ∧ o'.state.meter.steps = 8 := by
  let g : Graph := #[.var "a", .var "f", .apply .define [1, 0], .var "b", .var "c",
    .apply .whileLoop [4, 3], .apply .nop [], .var "d", .var "c", .apply .branch [8, 7, 6],
    .apply .prog3 [9, 5, 2]]
  let changed : Graph := #[.apply .add [77], .var "f", .apply .define [1, 0], .apply .call [88],
    .var "c", .apply .whileLoop [4, 3], .apply .nop [], .apply .assign [99], .var "c",
    .apply .branch [8, 7, 6], .apply .prog3 [9, 5, 2]]
  have hread : Program.read .standard "a f defsub b c while nop d c if prog3" = .ok ⟨g, 10⟩ := rfl
  let lib : Library := (Library.add {} g).add changed
  let scope : Scope := Scope.bind {} "c" (.boolean false)
  let body : Value := .deferred .subroutine ⟨0, 0⟩
  let o : Outcome := ⟨.ok body, { scope := scope.bind "f" body, meter := ⟨none, 8⟩ }⟩
  have hrun : evaluate 25 lib ⟨0, 10⟩ { scope } = some o := rfl
  have hskips : (Machine.trace lib 25 { control := .enter ⟨0, 10⟩, state := { scope } }).all
      (Machine.skips lib 0 [0, 3, 7]) = true := rfl
  have havoids : ∀ m, Machine.Reaches lib { control := .enter ⟨0, 10⟩, state := { scope } } m →
      m.Avoids lib 0 {0, 3, 7} := by
    intro m hm
    exact Machine.avoids_of_skips (List.all_eq_true.1 hskips m (hm.mem_trace hrun)) (by simp)
  have hsame : ∀ id ∉ ({0, 3, 7} : Set Nat), lib.node? ⟨1, id⟩ = lib.node? ⟨0, id⟩ := by
    intro id hid
    match id with
    | 0 | 3 | 7 => simp at hid
    | 1 | 2 | 4 | 5 | 6 | 8 | 9 | 10 | _ + 11 => rfl
  obtain ⟨o', hreturns, hresult, hscope, _, hmeter, _⟩ := unvisited_nodes_are_irrelevant lib 0 1 10
    {0, 3, 7} { scope } o hsame (Scope.all_empty.bind "c" trivial) ⟨25, hrun⟩ havoids (by rintro _ ⟨⟩)
  refine ⟨⟨g, 10⟩, o', hread, havoids, hreturns, hresult, (hscope "f").trans ?_, by rw [hmeter]⟩
  simp [o, body, Relocation.value, Relocation.place_regraph_self]

end ReversePolish
