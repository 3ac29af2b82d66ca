import ReversePolish.Proofs.GraphLaws
import ReversePolish.Proofs.WordLaws

namespace ReversePolish

inductive Token where
  | var (name : String)
  | num (value : Float)
  | apply (op : Operation)
  deriving DecidableEq

def Token.ofWord (v : Vocabulary) (word : String) : Token :=
  match v.find? word with
  | some op => .apply op
  | none =>
    match Number.read? word with
    | some value => .num value
    | none => .var word

def Node.token : Node → Token
  | .var name => .var name
  | .num value => .num value
  | .apply op _ => .apply op

namespace Tree

mutual

/-- Every operation follows its operands, and the first operand comes last. -/
def linearise : Tree → List Token
  | .var name => [.var name]
  | .num value => [.num value]
  | .apply op operands => lineariseAll operands ++ [.apply op]
  | .missing _ => []

def lineariseAll : List Tree → List Token
  | [] => []
  | t :: ts => lineariseAll ts ++ linearise t

end

theorem lineariseAll_append (ts us : List Tree) :
    lineariseAll (ts ++ us) = lineariseAll us ++ lineariseAll ts := by
  induction ts with
  | nil => simp [lineariseAll]
  | cons t ts ih => simp [lineariseAll, ih]

inductive Complete : Tree → Prop
  | var (name) : Complete (.var name)
  | num (value) : Complete (.num value)
  | apply {op operands} : operands.length = op.arity → (∀ t ∈ operands, Complete t) →
      Complete (.apply op operands)

end Tree

abbrev Forest := List Tree

namespace Forest

def push (forest : Forest) : Token → Option Forest
  | .apply op =>
    if forest.length < op.arity then none
    else some (.apply op (forest.take op.arity) :: forest.drop op.arity)
  | .num value => some (.num value :: forest)
  | .var name => some (.var name :: forest)

theorem push_apply {op : Operation} {operands forest : Forest}
    (h : operands.length = op.arity) :
    push (operands ++ forest) (.apply op) = some (.apply op operands :: forest) := by
  simp [push, ← h]

theorem push_eq_some {forest forest' : Forest} {token : Token}
    (h : push forest token = some forest') :
    (∃ op, token = .apply op ∧ op.arity ≤ forest.length ∧
      forest' = .apply op (forest.take op.arity) :: forest.drop op.arity) ∨
    (∃ value, token = .num value ∧ forest' = .num value :: forest) ∨
    ∃ name, token = .var name ∧ forest' = .var name :: forest := by
  cases token with
  | apply op =>
    simp only [push] at h
    split at h
    · cases h
    · exact .inl ⟨op, rfl, by omega, (Option.some.inj h).symm⟩
  | num value => exact .inr (.inl ⟨value, rfl, (Option.some.inj h).symm⟩)
  | var name => exact .inr (.inr ⟨name, rfl, (Option.some.inj h).symm⟩)

theorem lineariseAll_push {forest forest' : Forest} {token : Token}
    (h : push forest token = some forest') :
    Tree.lineariseAll forest' = Tree.lineariseAll forest ++ [token] := by
  rcases push_eq_some h with ⟨op, rfl, _, rfl⟩ | ⟨value, rfl, rfl⟩ | ⟨name, rfl, rfl⟩
  · rw [Tree.lineariseAll, Tree.linearise, ← List.append_assoc, ← Tree.lineariseAll_append,
      List.take_append_drop]
  · rfl
  · rfl

theorem complete_push {forest forest' : Forest} {token : Token} (hf : ∀ t ∈ forest, t.Complete)
    (h : push forest token = some forest') : ∀ t ∈ forest', t.Complete := by
  intro t ht
  rcases push_eq_some h with ⟨op, rfl, hlen, rfl⟩ | ⟨value, rfl, rfl⟩ | ⟨name, rfl, rfl⟩
  · cases ht with
    | head =>
      refine .apply (by rw [List.length_take]; omega) ?_
      intro u hu
      exact hf u (List.mem_of_mem_take hu)
    | tail _ ht => exact hf t (List.mem_of_mem_drop ht)
  · cases ht with
    | head => exact .num value
    | tail _ ht => exact hf t ht
  · cases ht with
    | head => exact .var name
    | tail _ ht => exact hf t ht

theorem lineariseAll_foldlM {tokens : List Token} :
    ∀ {forest forest' : Forest}, (∀ t ∈ forest, t.Complete) →
      tokens.foldlM push forest = some forest' →
      Tree.lineariseAll forest' = Tree.lineariseAll forest ++ tokens ∧ ∀ t ∈ forest', t.Complete := by
  induction tokens with
  | nil =>
    intro forest forest' hf h
    obtain rfl := Option.some.inj h
    exact ⟨by simp, hf⟩
  | cons token tokens ih =>
    intro forest forest' hf h
    obtain ⟨next, hn, h⟩ := Option.bind_eq_some_iff.1 h
    obtain ⟨hl, hc⟩ := ih (complete_push hf hn) h
    rw [hl, lineariseAll_push hn]
    exact ⟨by simp, hc⟩

theorem foldlM_lineariseAll {ts : List Tree}
    (h : ∀ t ∈ ts, ∀ forest, t.linearise.foldlM push forest = some (t :: forest)) (forest : Forest) :
    (Tree.lineariseAll ts).foldlM push forest = some (ts ++ forest) := by
  induction ts with
  | nil => rfl
  | cons t ts ih =>
    rw [Tree.lineariseAll, List.foldlM_append, ih fun u hu => h u (List.mem_cons_of_mem t hu)]
    exact h t List.mem_cons_self _

theorem foldlM_linearise {t : Tree} (ht : t.Complete) :
    ∀ forest, t.linearise.foldlM push forest = some (t :: forest) := by
  induction ht with
  | var name => exact fun _ => rfl
  | num value => exact fun _ => rfl
  | @apply op operands hlen _ ih =>
    intro forest
    rw [Tree.linearise, List.foldlM_append, foldlM_lineariseAll ih]
    change (push (operands ++ forest) (.apply op)).bind some = _
    rw [push_apply hlen, Option.bind_some]

theorem foldlM_push_eq_some_iff {tokens : List Token} {forest : Forest} :
    tokens.foldlM push [] = some forest ↔
      Tree.lineariseAll forest = tokens ∧ ∀ t ∈ forest, t.Complete := by
  constructor
  · intro h
    exact lineariseAll_foldlM (by simp) h
  · rintro ⟨rfl, hf⟩
    rw [foldlM_lineariseAll fun t ht => foldlM_linearise (hf t ht)]
    simp

end Forest

theorem Tree.Complete.linearise_injective {t t' : Tree} (ht : t.Complete) (ht' : t'.Complete)
    (h : t.linearise = t'.linearise) : t = t' := by
  have he := Forest.foldlM_linearise ht []
  rw [h, Forest.foldlM_linearise ht'] at he
  exact (List.cons.inj (Option.some.inj he)).1.symm

namespace Assembler

def forest (a : Assembler) : Forest :=
  a.stack.map a.graph.unfold

variable {v : Vocabulary} {word : String} {a b : Assembler}

theorem forest_add {node : Node} {n : Nat} (ha : a.WellFormed) :
    (a.add node n).forest =
      Graph.unfold (a.graph.push node) a.graph.size :: a.forest.drop n := by
  simp only [forest, add, List.map_cons, List.cons.injEq, true_and]
  rw [← List.map_drop]
  apply List.map_congr_left
  intro id hid
  exact ha.graph.unfold_push_of_lt node (ha.stack id (List.mem_of_mem_drop hid))

theorem forest_push (ha : a.WellFormed) :
    (a.push v word).toOption.map forest = a.forest.push (Token.ofWord v word) := by
  cases hv : v.find? word with
  | some op =>
    have hforest : a.forest.length = a.stack.length := by simp [forest]
    simp only [push, Token.ofWord, hv, Forest.push, hforest, List.length_take]
    by_cases hlen : a.stack.length < op.arity
    · rw [if_pos (by omega), if_pos hlen]
      rfl
    · rw [if_neg (by omega), if_neg hlen]
      have hx : ∀ x ∈ a.stack.take op.arity, x < a.graph.size := fun x hx =>
        ha.stack x (List.mem_of_mem_take hx)
      change some (forest _) = _
      rw [forest_add ha, ha.graph.unfold_push_size _ (by rintro _ _ ⟨⟩; exact hx)]
      simp [forest, List.map_take]
  | none =>
    cases hr : Number.read? word with
    | some value =>
      simp only [push, Token.ofWord, hv, hr, Forest.push]
      change some (forest _) = _
      rw [forest_add ha, ha.graph.unfold_push_size _ (by simp), List.drop_zero]
    | none =>
      simp only [push, Token.ofWord, hv, hr, Forest.push]
      change some (forest _) = _
      rw [forest_add ha, ha.graph.unfold_push_size _ (by simp), List.drop_zero]

theorem forest_foldlM (ws : List String) (ha : a.WellFormed) :
    (ws.foldlM (fun (a : Assembler) word => a.push v word) a).toOption.map forest =
      (ws.map (Token.ofWord v)).foldlM Forest.push a.forest := by
  induction ws generalizing a with
  | nil => rfl
  | cons word ws ih =>
    rw [List.map_cons, List.foldlM_cons, List.foldlM_cons, ← forest_push ha]
    match hp : a.push v word with
    | .error e => rfl
    | .ok b => exact ih (ha.push hp)

theorem token_push {before : List String}
    (ha : a.graph.toList.map Node.token = before.map (Token.ofWord v))
    (h : a.push v word = .ok b) :
    b.graph.toList.map Node.token = (before ++ [word]).map (Token.ofWord v) ∧
      ∃ rest, b.stack = a.graph.size :: rest ∧ b.graph.size = a.graph.size + 1 := by
  rcases push_eq_ok h with ⟨op, hv, _, rfl⟩ | ⟨value, hv, hr, rfl⟩ | ⟨hv, hr, rfl⟩
  · simp [add, ha, Token.ofWord, hv, Node.token]
  · simp [add, ha, Token.ofWord, hv, hr, Node.token]
  · simp [add, ha, Token.ofWord, hv, hr, Node.token]

end Assembler

namespace Program

variable {v : Vocabulary} {text : String} {p : Program}

theorem foldlM_push_of_read (h : Program.read v text = .ok p) :
    ((words text).map (Token.ofWord v)).foldlM Forest.push [] = some [p.graph.unfold p.root] := by
  obtain ⟨a, ha, hg, hs⟩ := read_eq_ok h
  have hf := Assembler.forest_foldlM (v := v) (words text) Assembler.wellFormed_empty
  rw [ha] at hf
  change some a.forest = _ at hf
  rw [← hg]
  simpa [Assembler.forest, hs] using hf.symm

theorem exists_read_of_foldlM_push {t : Tree}
    (h : ((words text).map (Token.ofWord v)).foldlM Forest.push [] = some [t]) :
    ∃ p, Program.read v text = .ok p := by
  have hf := Assembler.forest_foldlM (v := v) (words text) Assembler.wellFormed_empty
  rw [show ({} : Assembler).forest = [] from rfl, h] at hf
  match ha : (words text).foldlM (fun a word => a.push v word) ({} : Assembler) with
  | .error e =>
    rw [ha] at hf
    cases hf
  | .ok a =>
    rw [ha] at hf
    obtain ⟨root, hs, _⟩ := List.map_eq_singleton_iff.1 (Option.some.inj hf)
    refine ⟨⟨a.graph, root⟩, ?_⟩
    rw [Program.read, ha]
    change a.finish = _
    rw [Assembler.finish, hs]

theorem token_of_read (h : Program.read v text = .ok p) :
    p.graph.toList.map Node.token = (words text).map (Token.ofWord v) ∧
      p.root + 1 = p.graph.size := by
  obtain ⟨a, ha, hg, hs⟩ := read_eq_ok h
  have hinv := Assembler.foldlM_induction
    (P := fun before a => a.graph.toList.map Node.token = before.map (Token.ofWord v) ∧
      (a.stack = [] ∨ ∃ rest, a.stack = (a.graph.size - 1) :: rest ∧ 0 < a.graph.size))
    ⟨rfl, .inl rfl⟩
    (by
      intro before word a b hab hp
      obtain ⟨ht, rest, hstack, hsize⟩ := Assembler.token_push hab.1 hp
      exact ⟨ht, .inr ⟨rest, by simp [hstack, hsize], by omega⟩⟩) ha
  obtain ⟨ht, hempty | ⟨rest, hstack, hpos⟩⟩ := hinv
  · rw [hs] at hempty
    cases hempty
  · rw [hs] at hstack
    rw [← hg]
    exact ⟨ht, by rw [(List.cons.inj hstack).1]; omega⟩

end Program

/-- Exactly the postfix forms of complete trees can be read, each as the one tree that it comes
from, with a node for every word. -/
theorem read_accepts_postfix_forms (v : Vocabulary) (text : String) :
    Divides text.toList (words text) ∧
    ((∃ p, Program.read v text = .ok p) ↔
      ∃ t : Tree, t.Complete ∧ t.linearise = (words text).map (Token.ofWord v)) ∧
    (∀ t t' : Tree, t.Complete → t'.Complete →
      t.linearise = (words text).map (Token.ofWord v) →
      t'.linearise = (words text).map (Token.ofWord v) → t = t') ∧
    ∀ p, Program.read v text = .ok p →
      (p.graph.unfold p.root).Complete ∧
      (p.graph.unfold p.root).linearise = (words text).map (Token.ofWord v) ∧
      p.graph.toList.map Node.token = (words text).map (Token.ofWord v) ∧
      p.root + 1 = p.graph.size := by
  have hread : ∀ p, Program.read v text = .ok p →
      (p.graph.unfold p.root).Complete ∧
        (p.graph.unfold p.root).linearise = (words text).map (Token.ofWord v) := by
    intro p hp
    obtain ⟨hl, hc⟩ := Forest.foldlM_push_eq_some_iff.1 (Program.foldlM_push_of_read hp)
    exact ⟨hc _ List.mem_cons_self, by simpa [Tree.lineariseAll] using hl⟩
  refine ⟨divides_words text, ⟨?_, ?_⟩, ?_, ?_⟩
  · rintro ⟨p, hp⟩
    exact ⟨_, hread p hp⟩
  · rintro ⟨t, ht, hl⟩
    refine Program.exists_read_of_foldlM_push (t := t) ?_
    rw [← hl]
    exact Forest.foldlM_linearise ht []
  · intro t t' ht ht' hl hl'
    exact ht.linearise_injective ht' (hl.trans hl'.symm)
  · intro p hp
    obtain ⟨hc, hl⟩ := hread p hp
    obtain ⟨ht, hroot⟩ := Program.token_of_read hp
    exact ⟨hc, hl, ht, hroot⟩

theorem read_accepts_postfix_forms_sub :
    Program.read .standard "y x -" = .ok ⟨#[.var "y", .var "x", .apply .sub [1, 0]], 2⟩ ∧
      (Tree.apply .sub [.var "x", .var "y"]).Complete ∧
      (Tree.apply .sub [.var "x", .var "y"]).linearise =
        (words "y x -").map (Token.ofWord .standard) ∧
      Graph.unfold #[.var "y", .var "x", .apply .sub [1, 0]] 2 =
        .apply .sub [.var "x", .var "y"] := by
  have hread : Program.read .standard "y x -" =
      .ok ⟨#[.var "y", .var "x", .apply .sub [1, 0]], 2⟩ := rfl
  have ht : (Tree.apply .sub [.var "x", .var "y"]).Complete := by
    refine .apply rfl ?_
    rintro t (_ | ⟨_, _ | ⟨_, ⟨⟩⟩⟩)
    · exact .var "x"
    · exact .var "y"
  have hl : (Tree.apply .sub [.var "x", .var "y"]).linearise =
      (words "y x -").map (Token.ofWord .standard) := rfl
  obtain ⟨_, _, hunique, hall⟩ := read_accepts_postfix_forms .standard "y x -"
  obtain ⟨hc, hl', _, _⟩ := hall _ hread
  exact ⟨hread, ht, hl, hunique _ _ hc ht hl' hl⟩

end ReversePolish
