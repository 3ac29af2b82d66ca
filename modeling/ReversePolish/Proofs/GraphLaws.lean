import ReversePolish.Assembler
import ReversePolish.Tree

namespace ReversePolish

namespace Graph

def WellFormed (g : Graph) : Prop :=
  ∀ (id : Nat) (op : Operation) (operands : List Nat), g[id]? = some (.apply op operands) →
    operands.length = op.arity ∧ ∀ x ∈ operands, x < id

theorem wellFormed_empty : WellFormed #[] := by
  intro id op operands h
  simp at h

theorem WellFormed.push {g : Graph} {node : Node} (hg : g.WellFormed)
    (hn : ∀ op operands, node = .apply op operands →
      operands.length = op.arity ∧ ∀ x ∈ operands, x < g.size) :
    WellFormed (g.push node) := by
  intro id op operands h
  rw [Array.getElem?_push] at h
  split at h
  · next e =>
    subst e
    exact hn op operands (Option.some.inj h)
  · exact hg id op operands h

theorem WellFormed.unfoldTo_push {g : Graph} (hg : g.WellFormed) (node : Node) (depth : Nat) :
    ∀ {id : Nat}, id < g.size → unfoldTo (g.push node) depth id = g.unfoldTo depth id := by
  induction depth with
  | zero =>
    intro id _
    rfl
  | succ depth ih =>
    intro id hid
    have hnode : (g.push node)[id]? = g[id]? := by
      rw [Array.getElem?_push, if_neg (Nat.ne_of_lt hid)]
    rw [unfoldTo, unfoldTo, hnode]
    match h : g[id]? with
    | none => rfl
    | some (.var name) => rfl
    | some (.num value) => rfl
    | some (.apply op operands) =>
      simp only [Tree.apply.injEq, true_and]
      apply List.map_congr_left
      intro x hx
      exact ih (Nat.lt_trans ((hg id op operands h).2 x hx) hid)

theorem WellFormed.unfoldTo_eq {g : Graph} (hg : g.WellFormed) :
    ∀ {id depth depth' : Nat}, id < depth → id < depth' →
      g.unfoldTo depth id = g.unfoldTo depth' id := by
  intro id
  induction id using Nat.strongRecOn with
  | ind id ih =>
    intro depth depth' h h'
    obtain ⟨d, rfl⟩ := Nat.exists_eq_add_one_of_ne_zero (Nat.ne_zero_of_lt h)
    obtain ⟨d', rfl⟩ := Nat.exists_eq_add_one_of_ne_zero (Nat.ne_zero_of_lt h')
    rw [unfoldTo, unfoldTo]
    match hnode : g[id]? with
    | none => rfl
    | some (.var name) => rfl
    | some (.num value) => rfl
    | some (.apply op operands) =>
      simp only [Tree.apply.injEq, true_and]
      apply List.map_congr_left
      intro x hx
      have hlt : x < id := (hg id op operands hnode).2 x hx
      exact ih x hlt (by omega) (by omega)

theorem WellFormed.unfold_push_of_lt {g : Graph} (hg : g.WellFormed) (node : Node) {id : Nat}
    (hid : id < g.size) : unfold (g.push node) id = g.unfold id := by
  rw [unfold, unfold, hg.unfoldTo_push node _ hid]
  exact hg.unfoldTo_eq (by rw [Array.size_push]; omega) (by omega)

theorem WellFormed.unfold_push_size {g : Graph} (hg : g.WellFormed) (node : Node)
    (hn : ∀ op operands, node = .apply op operands → ∀ x ∈ operands, x < g.size) :
    unfold (g.push node) g.size =
      match node with
      | .var name => .var name
      | .num value => .num value
      | .apply op operands => .apply op (operands.map g.unfold) := by
  rw [unfold, unfoldTo, Array.getElem?_push_size]
  match node with
  | .var name => rfl
  | .num value => rfl
  | .apply op operands =>
    simp only [Tree.apply.injEq, true_and]
    apply List.map_congr_left
    intro x hx
    have hlt : x < g.size := hn op operands rfl x hx
    rw [hg.unfoldTo_push _ _ hlt, unfold]
    exact hg.unfoldTo_eq (by rw [Array.size_push]; omega) (by omega)

end Graph

namespace Assembler

structure WellFormed (a : Assembler) : Prop where
  graph : a.graph.WellFormed
  stack : ∀ id ∈ a.stack, id < a.graph.size

theorem wellFormed_empty : ({} : Assembler).WellFormed where
  graph := Graph.wellFormed_empty
  stack := by simp

theorem push_eq_ok {v : Vocabulary} {word : String} {a b : Assembler} (h : a.push v word = .ok b) :
    (∃ op, v.find? word = some op ∧ op.arity ≤ a.stack.length ∧
      b = a.add (.apply op (a.stack.take op.arity)) op.arity) ∨
    (∃ value, v.find? word = none ∧ Number.read? word = some value ∧ b = a.add (.num value) 0) ∨
    (v.find? word = none ∧ Number.read? word = none ∧ b = a.add (.var word) 0) := by
  rw [Assembler.push] at h
  match hv : v.find? word with
  | some op =>
    simp only [hv, List.length_take] at h
    split at h
    · cases h
    · exact .inl ⟨op, rfl, by omega, (Except.ok.inj h).symm⟩
  | none =>
    match hr : Number.read? word with
    | some value =>
      simp only [hv, hr] at h
      exact .inr (.inl ⟨value, rfl, rfl, (Except.ok.inj h).symm⟩)
    | none =>
      simp only [hv, hr] at h
      exact .inr (.inr ⟨rfl, rfl, (Except.ok.inj h).symm⟩)

theorem WellFormed.add {a : Assembler} (ha : a.WellFormed) (node : Node) (n : Nat)
    (hn : ∀ op operands, node = .apply op operands →
      operands.length = op.arity ∧ ∀ x ∈ operands, x < a.graph.size) :
    (a.add node n).WellFormed where
  graph := ha.graph.push hn
  stack := by
    intro id hid
    simp only [Assembler.add, List.mem_cons, Array.size_push] at hid ⊢
    cases hid with
    | inl h => omega
    | inr h => exact Nat.lt_succ_of_lt (ha.stack id (List.mem_of_mem_drop h))

theorem WellFormed.push {v : Vocabulary} {word : String} {a b : Assembler} (ha : a.WellFormed)
    (h : a.push v word = .ok b) : b.WellFormed := by
  rcases push_eq_ok h with ⟨op, _, hlen, rfl⟩ | ⟨value, _, _, rfl⟩ | ⟨_, _, rfl⟩
  · apply ha.add
    rintro _ _ ⟨⟩
    refine ⟨by rw [List.length_take]; omega, ?_⟩
    intro x hx
    exact ha.stack x (List.mem_of_mem_take hx)
  · exact ha.add _ 0 (by simp)
  · exact ha.add _ 0 (by simp)

theorem foldlM_induction {v : Vocabulary} {P : List String → Assembler → Prop} (empty : P [] {})
    (push : ∀ before word a b, P before a → a.push v word = .ok b → P (before ++ [word]) b)
    {ws : List String} {a : Assembler}
    (h : ws.foldlM (fun a word => a.push v word) ({} : Assembler) = .ok a) : P ws a := by
  suffices H : ∀ (ws before : List String) (a b : Assembler), P before a →
      ws.foldlM (fun a word => a.push v word) a = .ok b → P (before ++ ws) b by
    simpa using H ws [] {} a empty h
  intro ws
  induction ws with
  | nil =>
    intro before a b ha h
    obtain rfl : a = b := Except.ok.inj h
    simpa using ha
  | cons word ws ih =>
    intro before a b ha h
    rw [List.foldlM_cons] at h
    match hp : a.push v word with
    | .error e =>
      rw [hp] at h
      cases h
    | .ok c =>
      rw [hp] at h
      simpa using ih (before ++ [word]) c b (push before word a c ha hp) h

end Assembler

@[simp] theorem Library.next_add (lib : Library) (g : Graph) : (lib.add g).next = lib.next + 1 := by
  simp [add, next]

theorem Library.graph_add_of_lt {lib : Library} (new : Graph) {n : Nat} (h : n < lib.next) :
    (lib.add new).graph n = lib.graph n := by
  rw [graph_add, if_neg (Nat.ne_of_lt h)]

theorem Library.graph_add_next (lib : Library) (g : Graph) : (lib.add g).graph lib.next = g := by
  rw [graph_add, if_pos rfl]

theorem Assembler.finish_eq_ok {a : Assembler} {p : Program} (h : a.finish = .ok p) :
    p.graph = a.graph ∧ a.stack = [p.root] := by
  rw [finish] at h
  split at h
  · cases h
  · next root hs =>
    obtain rfl := Except.ok.inj h
    exact ⟨rfl, hs⟩
  · cases h

theorem Program.read_eq_ok {v : Vocabulary} {text : String} {p : Program}
    (h : Program.read v text = .ok p) :
    ∃ a : Assembler, (words text).foldlM (fun a word => a.push v word) ({} : Assembler) = .ok a ∧
      a.graph = p.graph ∧ a.stack = [p.root] := by
  rw [Program.read] at h
  match hf : (words text).foldlM (fun a word => a.push v word) ({} : Assembler) with
  | .error e =>
    rw [hf] at h
    cases h
  | .ok a =>
    rw [hf] at h
    obtain ⟨hg, hs⟩ := Assembler.finish_eq_ok h
    exact ⟨a, rfl, hg.symm, hs⟩

theorem Program.wellFormed_of_read {v : Vocabulary} {text : String} {p : Program}
    (h : Program.read v text = .ok p) : p.graph.WellFormed ∧ p.root < p.graph.size := by
  obtain ⟨a, hf, hg, hs⟩ := Program.read_eq_ok h
  have ha : a.WellFormed := Assembler.foldlM_induction (v := v) (P := fun _ a => a.WellFormed)
    Assembler.wellFormed_empty (fun _ _ _ _ ha hp => ha.push hp) hf
  rw [← hg]
  exact ⟨ha.graph, ha.stack p.root (by simp [hs])⟩

end ReversePolish
