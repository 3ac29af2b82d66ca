import ReversePolish.Proofs.Legibility

namespace ReversePolish

def Node.operands : Node → List Nat
  | .apply _ operands => operands
  | _ => []

namespace Graph

def operands (g : Graph) : List Nat :=
  g.toList.flatMap Node.operands

def Under (g : Graph) : Nat → Nat → Prop :=
  Relation.ReflTransGen g.IsOperand

/-- The subtree of a node consists of the nodes from `lo` up to the node itself. -/
structure Spans (g : Graph) (lo id : Nat) : Prop where
  le : lo ≤ id
  under_iff (x) : g.Under x id ↔ lo ≤ x ∧ x ≤ id

/-- The subtrees of these nodes, the latest first, lie side by side from `lo` to the last number
here. -/
inductive Tiles (g : Graph) (lo : Nat) : List Nat → Nat → Prop
  | nil : Tiles g lo [] lo
  | cons {id ids mid} : Tiles g lo ids mid → g.Spans mid id → Tiles g lo (id :: ids) (id + 1)

variable {g : Graph} {node : Node} {x id lo mid hi : Nat} {ids : List Nat}

theorem isOperand_push_of_lt (hid : id < g.size) :
    IsOperand (g.push node) x id ↔ g.IsOperand x id := by
  simp only [IsOperand, Array.getElem?_push, if_neg (Nat.ne_of_lt hid)]

theorem isOperand_push_size : IsOperand (g.push node) x g.size ↔ x ∈ node.operands := by
  cases node <;> simp [IsOperand, Node.operands]

theorem WellFormed.lt_of_isOperand (hg : g.WellFormed) (h : g.IsOperand x id) : x < id := by
  obtain ⟨op, operands, hn, hx⟩ := h
  exact (hg id op operands hn).2 x hx

theorem WellFormed.under_push_of_lt (hg : g.WellFormed) (hid : id < g.size) :
    Under (g.push node) x id ↔ g.Under x id := by
  -- No way down leads to the new node, which is an operand of none.
  constructor
  · intro h
    induction h with
    | refl => exact .refl
    | tail _ hop ih =>
      have hop := (isOperand_push_of_lt hid).1 hop
      exact .tail (ih (Nat.lt_trans (hg.lt_of_isOperand hop) hid)) hop
  · intro h
    induction h with
    | refl => exact .refl
    | tail _ hop ih =>
      exact .tail (ih (Nat.lt_trans (hg.lt_of_isOperand hop) hid)) ((isOperand_push_of_lt hid).2 hop)

theorem WellFormed.under_push_size (hg : g.WellFormed) (hn : ∀ y ∈ node.operands, y < g.size) :
    Under (g.push node) x g.size ↔ x = g.size ∨ ∃ y ∈ node.operands, g.Under x y := by
  rw [Under, Relation.ReflTransGen.cases_tail_iff]
  apply or_congr eq_comm
  constructor
  · rintro ⟨y, hxy, hop⟩
    have hy := isOperand_push_size.1 hop
    exact ⟨y, hy, (hg.under_push_of_lt (hn y hy)).1 hxy⟩
  · rintro ⟨y, hy, hxy⟩
    exact ⟨y, (hg.under_push_of_lt (hn y hy)).2 hxy, isOperand_push_size.2 hy⟩

namespace Tiles

theorem le (h : g.Tiles lo ids hi) : lo ≤ hi := by
  induction h with
  | nil => exact Nat.le_refl lo
  | cons _ hspans ih => exact Nat.le_succ_of_le (Nat.le_trans ih hspans.le)

theorem lt_of_mem (h : g.Tiles lo ids hi) : ∀ x ∈ ids, x < hi := by
  induction h with
  | nil => simp
  | cons _ hspans ih =>
    intro x hx
    have hle := hspans.le
    obtain rfl | hx := List.mem_cons.1 hx
    · exact Nat.lt_succ_self x
    · have hlt := ih x hx
      omega

theorem descending (h : g.Tiles lo ids hi) : ids.Pairwise (· > ·) := by
  induction h with
  | nil => exact .nil
  | cons htiles hspans ih =>
    exact .cons (fun x hx => Nat.lt_of_lt_of_le (htiles.lt_of_mem x hx) hspans.le) ih

theorem exists_under_iff (h : g.Tiles lo ids hi) (x : Nat) :
    (∃ id ∈ ids, g.Under x id) ↔ lo ≤ x ∧ x < hi := by
  induction h with
  | nil =>
    simp only [List.not_mem_nil, false_and, exists_false, false_iff]
    omega
  | @cons id ids mid htiles hspans ih =>
    have hle := htiles.le
    have hmid := hspans.le
    rw [List.exists_mem_cons_iff, hspans.under_iff, ih]
    omega

theorem split {above below : List Nat} (h : g.Tiles lo (above ++ below) hi) :
    ∃ mid, g.Tiles lo below mid ∧ g.Tiles mid above hi := by
  induction above generalizing hi with
  | nil => exact ⟨hi, h, .nil⟩
  | cons id above ih =>
    cases h with
    | cons htiles hspans =>
      obtain ⟨mid, hbelow, habove⟩ := ih htiles
      exact ⟨mid, hbelow, .cons habove hspans⟩

theorem push (hg : g.WellFormed) (h : g.Tiles lo ids hi) (hhi : hi ≤ g.size) :
    Tiles (g.push node) lo ids hi := by
  induction h with
  | nil => exact .nil
  | @cons id ids mid _ hspans ih =>
    have hle := hspans.le
    refine .cons (ih (by omega)) ⟨hle, fun x => ?_⟩
    rw [hg.under_push_of_lt (by omega), hspans.under_iff]

theorem spans_push (hg : g.WellFormed) (h : g.Tiles mid node.operands g.size) :
    Spans (g.push node) mid g.size := by
  refine ⟨h.le, fun x => ?_⟩
  have hle := h.le
  rw [hg.under_push_size h.lt_of_mem, h.exists_under_iff]
  omega

end Tiles

theorem operands_push (g : Graph) (node : Node) :
    operands (g.push node) = g.operands ++ node.operands := by
  simp [operands]

end Graph

namespace Assembler

variable {a b : Assembler} {node : Node} {v : Vocabulary} {word : String} {n : Nat}

structure Tiled (a : Assembler) : Prop where
  graph : a.graph.WellFormed
  descending : ∀ (id : Nat) (op : Operation) (operands : List Nat),
    a.graph[id]? = some (.apply op operands) → operands.Pairwise (· > ·)
  tiles : a.graph.Tiles 0 a.stack a.graph.size
  owned : (a.stack ++ a.graph.operands).Perm (List.range a.graph.size)

theorem tiled_empty : ({} : Assembler).Tiled where
  graph := Graph.wellFormed_empty
  descending := by simp
  tiles := .nil
  owned := .refl _

theorem Tiled.add (ha : a.Tiled) (hn : node.operands = a.stack.take n)
    (harity : ∀ op operands, node = .apply op operands → operands.length = op.arity) :
    (a.add node n).Tiled := by
  have htiles := ha.tiles
  rw [← List.take_append_drop n a.stack, ← hn] at htiles
  obtain ⟨mid, hrest, hoperands⟩ := htiles.split
  refine ⟨ha.graph.push ?_, ?_, ?_, ?_⟩
  · rintro op operands rfl
    exact ⟨harity op operands rfl, hoperands.lt_of_mem⟩
  · intro id op operands h
    change (a.graph.push node)[id]? = _ at h
    rw [Array.getElem?_push] at h
    split at h
    · obtain rfl := Option.some.inj h
      exact hoperands.descending
    · exact ha.descending id op operands h
  · change Graph.Tiles (a.graph.push node) 0 (a.graph.size :: a.stack.drop n) (a.graph.push node).size
    rw [Array.size_push]
    exact .cons (hrest.push ha.graph hoperands.le) (hoperands.spans_push ha.graph)
  · change (a.graph.size :: a.stack.drop n ++ Graph.operands (a.graph.push node)).Perm
      (List.range (a.graph.push node).size)
    rw [Array.size_push, List.range_succ, Graph.operands_push, hn]
    calc
      List.Perm (a.graph.size :: (a.stack.drop n ++ (a.graph.operands ++ a.stack.take n)))
          (a.graph.size :: (a.stack ++ a.graph.operands)) := by
        apply List.Perm.cons
        rw [← List.append_assoc]
        refine List.perm_append_comm.trans (.of_eq ?_)
        rw [← List.append_assoc, List.take_append_drop]
      List.Perm _ (a.graph.size :: List.range a.graph.size) := ha.owned.cons _
      List.Perm _ (List.range a.graph.size ++ [a.graph.size]) :=
        (List.perm_append_singleton _ _).symm

theorem Tiled.push (ha : a.Tiled) (h : a.push v word = .ok b) : b.Tiled := by
  rcases push_eq_ok h with ⟨op, _, hlen, rfl⟩ | ⟨value, _, _, rfl⟩ | ⟨_, _, rfl⟩
  · apply ha.add rfl
    rintro _ _ ⟨⟩
    rw [List.length_take]
    omega
  · exact ha.add rfl nofun
  · exact ha.add rfl nofun

theorem push_eq_error {e : ReadError} (h : a.push v word = .error e) :
    ∃ op, v.find? word = some op ∧ a.stack.length < op.arity ∧
      e = .underflow word a.position op.arity a.stack.length := by
  rw [Assembler.push] at h
  cases hv : v.find? word with
  | some op =>
    simp only [hv, List.length_take] at h
    split at h
    · next hlt =>
      have hlt : a.stack.length < op.arity := by omega
      refine ⟨op, rfl, hlt, ?_⟩
      rw [← Except.error.inj h, Nat.min_eq_right (Nat.le_of_lt hlt)]
    · cases h
  | none =>
    simp only [hv] at h
    split at h <;> cases h

def feedAll (v : Vocabulary) (a : Assembler) : List String → Assembler × List (Option ReadError)
  | [] => (a, [])
  | word :: ws =>
    let (b, answer) := a.feed v word
    let (c, answers) := b.feedAll v ws
    (c, answer :: answers)

theorem feed_eq {answer : Option ReadError} (h : a.feed v word = (b, answer)) :
    answer = none ∧ a.push v word = .ok b ∨
      ∃ e, answer = some e ∧ a.push v word = .error e ∧ b = a.skip := by
  rw [feed] at h
  split at h
  · next hp =>
    obtain ⟨rfl, rfl⟩ := Prod.mk.inj h
    exact .inl ⟨rfl, hp⟩
  · next hp =>
    obtain ⟨rfl, rfl⟩ := Prod.mk.inj h
    exact .inr ⟨_, rfl, hp, rfl⟩

theorem size_push (h : a.push v word = .ok b) :
    b.graph.size = a.graph.size + 1 ∧ b.position = a.position + 1 := by
  rcases push_eq_ok h with ⟨op, _, _, rfl⟩ | ⟨value, _, _, rfl⟩ | ⟨_, _, rfl⟩ <;> simp [add]

structure Fed (ws : List String) (answers : List (Option ReadError)) (a b : Assembler) : Prop where
  tiled : b.Tiled
  size : b.graph.size = a.graph.size + answers.count none
  position : b.position = a.position + ws.length

theorem feedAll_cons_eq {ws : List String} {answers : List (Option ReadError)}
    (h : a.feedAll v (word :: ws) = (b, answers)) :
    ∃ c answer rest, a.feed v word = (c, answer) ∧ c.feedAll v ws = (b, rest) ∧
      answers = answer :: rest := by
  obtain ⟨rfl, rfl⟩ := Prod.mk.inj h
  exact ⟨_, _, _, rfl, rfl, rfl⟩

theorem Tiled.feedAll {ws : List String} {answers : List (Option ReadError)} (ha : a.Tiled)
    (h : a.feedAll v ws = (b, answers)) : Fed ws answers a b := by
  induction ws generalizing a answers with
  | nil =>
    obtain ⟨rfl, rfl⟩ := Prod.mk.inj h
    exact ⟨ha, rfl, rfl⟩
  | cons word ws ih =>
    obtain ⟨c, answer, rest, hfeed, hrest, rfl⟩ := feedAll_cons_eq h
    obtain ⟨rfl, hpush⟩ | ⟨e, rfl, _, rfl⟩ := feed_eq hfeed
    · obtain ⟨hsize, hposition⟩ := size_push hpush
      obtain ⟨htiled, hsize', hposition'⟩ := ih (ha.push hpush) hrest
      refine ⟨htiled, ?_, ?_⟩
      · rw [hsize', hsize, List.count_cons_self]
        omega
      · rw [hposition', hposition, List.length_cons]
        omega
    · obtain ⟨htiled, hsize', hposition'⟩ := ih (a := a.skip) ⟨ha.1, ha.2, ha.3, ha.4⟩ hrest
      refine ⟨htiled, ?_, ?_⟩
      · rw [hsize', List.count_cons_of_ne (Option.some_ne_none e)]
        rfl
      · rw [hposition', List.length_cons]
        change a.position + 1 + ws.length = _
        omega

end Assembler

namespace Graph

variable {g : Graph} {n x : Nat}

theorem isOperand_iff {id : Nat} :
    g.IsOperand x id ↔ ∃ node, g[id]? = some node ∧ x ∈ node.operands := by
  constructor
  · rintro ⟨op, operands, hn, hx⟩
    exact ⟨_, hn, hx⟩
  · rintro ⟨node, hn, hx⟩
    cases node with
    | apply op operands => exact ⟨op, operands, hn, hx⟩
    | _ => cases hx

theorem not_mem_operands_of_lt {i j : Nat} {node node' : Node} (h : g.operands.Nodup) (hij : i < j)
    (hi : g[i]? = some node) (hj : g[j]? = some node') (hx : x ∈ node.operands) :
    x ∉ node'.operands := by
  obtain ⟨hlt, rfl⟩ := Array.getElem?_eq_some_iff.1 hi
  obtain ⟨hlt', rfl⟩ := Array.getElem?_eq_some_iff.1 hj
  exact List.pairwise_iff_getElem.1 (List.nodup_flatMap.1 h).2 i j hlt hlt' hij hx

theorem existsUnique_isOperand (h : g.operands.Perm (List.range n)) (hx : x < n) :
    ∃! id, g.IsOperand x id := by
  have hnodup : g.operands.Nodup := h.nodup_iff.2 List.nodup_range
  obtain ⟨node, hnode, hxn⟩ := List.mem_flatMap.1 (h.mem_iff.2 (List.mem_range.2 hx))
  obtain ⟨id, hid⟩ := List.mem_iff_getElem?.1 hnode
  rw [Array.getElem?_toList] at hid
  refine ⟨id, isOperand_iff.2 ⟨node, hid, hxn⟩, ?_⟩
  intro id' hop
  obtain ⟨node', hid', hxn'⟩ := isOperand_iff.1 hop
  obtain hlt | rfl | hlt := Nat.lt_trichotomy id' id
  · exact absurd hxn (not_mem_operands_of_lt hnodup hlt hid' hid hxn')
  · rfl
  · exact absurd hxn' (not_mem_operands_of_lt hnodup hlt hid hid' hxn)

end Graph

/-- Whatever words come, every node is an operand of one other node or waits on the stack, and the
subtrees of those that wait lie side by side. A word that is refused is only counted. -/
theorem assembler_holds_a_forest (v : Vocabulary) (ws : List String) (a : Assembler)
    (answers : List (Option ReadError)) (h : Assembler.feedAll v {} ws = (a, answers)) :
    a.graph.size = answers.count none ∧
    a.stack.reverse.Pairwise (· < ·) ∧
    (∀ (id : Nat) (op : Operation) (operands : List Nat),
      a.graph[id]? = some (.apply op operands) →
      operands.length = op.arity ∧ (∀ x ∈ operands, x < id) ∧ operands.Pairwise (· > ·)) ∧
    (a.stack ++ a.graph.operands).Perm (List.range a.graph.size) ∧
    a.graph.Tiles 0 a.stack a.graph.size ∧
    (∀ word b e, a.feed v word = (b, some e) →
      b = ⟨a.graph, a.stack, ws.length + 1⟩ ∧
      ∃ op, v.find? word = some op ∧ e = .underflow word ws.length op.arity a.stack.length) ∧
    ∀ p, a.finish = .ok p →
      p.graph = a.graph ∧ p.root + 1 = p.graph.size ∧
      p.graph.operands.Perm (List.range p.root) ∧
      ∀ id < p.root, ∃! parent, p.graph.IsOperand id parent := by
  obtain ⟨⟨hgraph, hdescending, htiles, howned⟩, hsize, hposition⟩ := Assembler.tiled_empty.feedAll h
  have hposition : a.position = ws.length := by simpa using hposition
  refine ⟨by simpa using hsize, List.pairwise_reverse.2 htiles.descending, ?_, howned, htiles, ?_, ?_⟩
  · intro id op operands hn
    obtain ⟨hlen, hlt⟩ := hgraph id op operands hn
    exact ⟨hlen, hlt, hdescending id op operands hn⟩
  · intro word b e hfeed
    obtain ⟨⟨⟩, _⟩ | ⟨_, ⟨⟩, hpush, rfl⟩ := Assembler.feed_eq hfeed
    obtain ⟨op, hop, _, rfl⟩ := Assembler.push_eq_error hpush
    rw [hposition, Assembler.skip, hposition]
    exact ⟨rfl, op, hop, rfl⟩
  · intro p hp
    obtain ⟨hg, hstack⟩ := Assembler.finish_eq_ok hp
    rw [hstack] at htiles howned
    have hroot : p.root + 1 = a.graph.size := by
      generalize a.graph.size = n at htiles
      cases htiles
      rfl
    rw [← hroot, List.range_succ] at howned
    have hrest : a.graph.operands.Perm (List.range p.root) :=
      (howned.trans (List.perm_append_singleton _ _)).cons_inv
    rw [hg]
    exact ⟨rfl, hroot, hrest, fun id hid => Graph.existsUnique_isOperand hrest hid⟩

theorem assembler_holds_a_forest_refused :
    ∃ a b, Assembler.feedAll .standard {} ["+", "x y", "", "-", "if"] =
        (a, [some (.underflow "+" 0 2 0), none, none, none, some (.underflow "if" 4 3 1)]) ∧
      a.graph.size = 3 ∧ a.graph.Tiles 0 [2] 3 ∧ [2, 1, 0].Perm (List.range 3) ∧
      a.feed .standard "setv" = (b, some (.underflow "setv" 5 3 1)) ∧
      b = ⟨a.graph, [2], 6⟩ ∧
      a.finish = .ok ⟨a.graph, 2⟩ ∧ ∃! parent, a.graph.IsOperand 0 parent := by
  let g : Graph := #[.var "x y", .var "", .apply .sub [1, 0]]
  have hfed : Assembler.feedAll .standard {} ["+", "x y", "", "-", "if"] =
      (⟨g, [2], 5⟩, [some (.underflow "+" 0 2 0), none, none, none, some (.underflow "if" 4 3 1)]) := rfl
  have hrefused : Assembler.feed .standard ⟨g, [2], 5⟩ "setv" =
      (⟨g, [2], 6⟩, some (.underflow "setv" 5 3 1)) := rfl
  obtain ⟨hsize, _, _, howned, htiles, hskips, hfinish⟩ :=
    assembler_holds_a_forest .standard _ _ _ hfed
  obtain ⟨hskip, _⟩ := hskips _ _ _ hrefused
  obtain ⟨_, _, _, hunique⟩ := hfinish ⟨g, 2⟩ rfl
  exact ⟨_, _, hfed, hsize, htiles, howned, hrefused, hskip, rfl, hunique 0 (by decide)⟩

end ReversePolish
