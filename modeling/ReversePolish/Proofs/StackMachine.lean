import Mathlib.Logic.Function.Iterate
import ReversePolish.Proofs.Postfix
import ReversePolish.Proofs.PureTrees

namespace ReversePolish

namespace StackMachine

def push (scope : Scope) (h : Heap) (stack : List Value) : Token → Option (List Value)
  | .var name => (scope.find? name).map (· :: stack)
  | .num value => some (.number value :: stack)
  | .apply op =>
    if stack.length < op.arity then none
    else (op.applyPure h (stack.take op.arity)).toOption.map (· :: stack.drop op.arity)

def run (scope : Scope) (h : Heap) (tokens : List Token) : Option (List Value) :=
  tokens.foldlM (push scope h) []

theorem push_apply {scope : Scope} {h : Heap} {op : Operation} {operands stack : List Value}
    (hlen : operands.length = op.arity) :
    push scope h (operands ++ stack) (.apply op) =
      (op.applyPure h operands).toOption.map (· :: stack) := by
  have hle : ¬ (operands ++ stack).length < op.arity := by
    rw [List.length_append]
    omega
  rw [push, if_neg hle, ← hlen, List.take_left, List.drop_left]

end StackMachine

namespace Forest

def values (scope : Scope) (h : Heap) (forest : Forest) : Option (List Value) :=
  (Tree.evaluateAll scope h forest).toOption

variable {scope : Scope} {h : Heap}

theorem values_cons (t : Tree) (ts : Forest) :
    values scope h (t :: ts) =
      (t.evaluate scope h).toOption.bind fun v => (values scope h ts).map (v :: ·) := by
  rw [values, Tree.evaluateAll, values]
  cases t.evaluate scope h with
  | error f => rfl
  | ok v => cases Tree.evaluateAll scope h ts <;> rfl

theorem values_append (ts us : Forest) :
    values scope h (ts ++ us) =
      (values scope h ts).bind fun vs => (values scope h us).map (vs ++ ·) := by
  induction ts with
  | nil =>
    change values scope h us = (some []).bind _
    cases values scope h us <;> rfl
  | cons t ts ih =>
    rw [List.cons_append, values_cons, values_cons, ih]
    cases (t.evaluate scope h).toOption with
    | none => rfl
    | some v =>
      cases values scope h ts with
      | none => rfl
      | some vs => cases values scope h us <;> rfl

theorem length_of_values {ts : Forest} {vs : List Value} (hv : values scope h ts = some vs) :
    vs.length = ts.length := by
  induction ts generalizing vs with
  | nil =>
    obtain rfl := Option.some.inj hv
    rfl
  | cons t ts ih =>
    rw [values_cons] at hv
    obtain ⟨v, _, hv⟩ := Option.bind_eq_some_iff.1 hv
    obtain ⟨ws, hw, rfl⟩ := Option.map_eq_some_iff.1 hv
    simp [ih hw]

theorem value_apply (op : Operation) (ts : Forest) :
    ((Tree.apply op ts).evaluate scope h).toOption =
      (values scope h ts).bind fun vs => (op.applyPure h vs).toOption := by
  rw [Tree.evaluate, values]
  cases Tree.evaluateAll scope h ts with
  | error f => rfl
  | ok vs =>
    change ((op.applyPure h vs).mapError _).toOption = (op.applyPure h vs).toOption
    cases op.applyPure h vs <;> rfl

theorem values_push (forest : Forest) (token : Token) :
    (forest.push token).bind (values scope h) =
      (values scope h forest).bind fun vs => StackMachine.push scope h vs token := by
  cases token with
  | var name =>
    simp only [push, Option.bind_some, values_cons, StackMachine.push, Tree.evaluate]
    cases scope.find? name with
    | none => cases values scope h forest <;> rfl
    | some v => cases values scope h forest <;> rfl
  | num value =>
    simp only [push, Option.bind_some, values_cons, StackMachine.push, Tree.evaluate]
    cases values scope h forest <;> rfl
  | apply op =>
    by_cases hlen : forest.length < op.arity
    · rw [push, if_pos hlen]
      cases hv : values scope h forest with
      | none => rfl
      | some vs =>
        rw [Option.bind_some, StackMachine.push, if_pos (by rw [length_of_values hv]; exact hlen)]
        rfl
    · -- The operands are on top of both stacks, so both are split there.
      rw [push, if_neg hlen, Option.bind_some, values_cons, value_apply]
      have hsplit : values scope h forest = values scope h
          (forest.take op.arity ++ forest.drop op.arity) := by rw [List.take_append_drop]
      rw [hsplit, values_append]
      cases hv : values scope h (forest.take op.arity) with
      | none => rfl
      | some vs =>
        have hvs : vs.length = op.arity := by
          rw [length_of_values hv, List.length_take]
          omega
        simp only [Option.bind_some]
        cases values scope h (forest.drop op.arity) with
        | none => cases (op.applyPure h vs).toOption <;> rfl
        | some ws =>
          rw [Option.map_some, Option.bind_some, StackMachine.push_apply hvs]
          cases (op.applyPure h vs).toOption <;> rfl

theorem values_foldlM (tokens : List Token) (forest : Forest) :
    (tokens.foldlM push forest).bind (values scope h) =
      (values scope h forest).bind fun vs => tokens.foldlM (StackMachine.push scope h) vs := by
  induction tokens generalizing forest with
  | nil => cases hv : values scope h forest <;> simp [hv]
  | cons token tokens ih =>
    have hstep : ((forest.push token).bind fun forest => tokens.foldlM push forest).bind
        (values scope h) = ((forest.push token).bind (values scope h)).bind
          fun vs => tokens.foldlM (StackMachine.push scope h) vs := by
      cases forest.push token with
      | none => rfl
      | some next => exact ih next
    rw [values_push] at hstep
    refine hstep.trans ?_
    cases values scope h forest <;> rfl

theorem run_eq_singleton_iff {tokens : List Token} {v : Value} :
    StackMachine.run scope h tokens = some [v] ↔
      ∃ t, tokens.foldlM push [] = some [t] ∧ t.evaluate scope h = .ok v := by
  have hrun : StackMachine.run scope h tokens =
      (tokens.foldlM push []).bind (values scope h) := (values_foldlM tokens []).symm
  rw [hrun]
  constructor
  · intro hv
    obtain ⟨forest, hf, hv⟩ := Option.bind_eq_some_iff.1 hv
    obtain ⟨t, rfl⟩ := List.length_eq_one_iff.1 (length_of_values hv).symm
    refine ⟨t, hf, ?_⟩
    rw [values_cons] at hv
    match he : t.evaluate scope h with
    | .error f =>
      rw [he] at hv
      cases hv
    | .ok w =>
      rw [he] at hv
      obtain ⟨rfl, _⟩ := List.cons.inj (Option.some.inj hv)
      rfl
  · rintro ⟨t, hf, hv⟩
    rw [hf, Option.bind_some, values_cons, hv]
    rfl

end Forest

theorem Tree.mem_lineariseAll {t : Tree} {ts : List Tree} {token : Token} (ht : t ∈ ts)
    (h : token ∈ t.linearise) : token ∈ Tree.lineariseAll ts := by
  induction ts with
  | nil => cases ht
  | cons u us ih =>
    rw [Tree.lineariseAll, List.mem_append]
    cases ht with
    | head => exact .inr h
    | tail _ ht => exact .inl (ih ht)

theorem Tree.Complete.pure {t : Tree} (ht : t.Complete)
    (h : ∀ op, .apply op ∈ t.linearise → op.isPure = true) : t.Pure := by
  induction ht with
  | var name => exact .var name
  | num value => exact .num value
  | apply hlen _ ih =>
    refine .apply (h _ (by simp [Tree.linearise])) hlen ?_
    intro t ht
    apply ih t ht
    intro op hop
    exact h op (List.mem_append_left _ (Tree.mem_lineariseAll ht hop))

theorem Program.follows_of_read {v : Vocabulary} {text : String} {p : Program}
    (hp : Program.read v text = .ok p)
    (hpure : ∀ word ∈ words text, ∀ op ∈ v.find? word, op.isPure = true) (lib : Library) :
    Machine.Follows (lib.add p.graph) ⟨lib.next, p.root⟩ (p.graph.unfold p.root) := by
  obtain ⟨hl, hc⟩ := Forest.foldlM_push_eq_some_iff.1 (Program.foldlM_push_of_read hp)
  have htree : (p.graph.unfold p.root).Pure := by
    apply (hc _ List.mem_cons_self).pure
    intro op hop
    have hmem : Token.apply op ∈ (words text).map (Token.ofWord v) := by
      rw [← hl]
      exact Tree.mem_lineariseAll List.mem_cons_self hop
    obtain ⟨word, hword, htoken⟩ := List.mem_map.1 hmem
    rw [Token.ofWord] at htoken
    split at htoken
    · next op' hv =>
      obtain rfl := Token.apply.inj htoken
      exact hpure word hword op' hv
    · split at htoken <;> cases htoken
  have hf := @Machine.follows_unfoldTo (lib.add p.graph) lib.next (p.graph.size + 1) p.root
  rw [Library.graph_add_next] at hf
  exact hf htree

/-- Pure programs come to what the stack machine comes to, and change nothing. -/
theorem run_eq_stackMachine (lib : Library) (text : String) (scope : Scope) (h : Heap)
    (hpure : ∀ word ∈ words text, ∀ op ∈ Vocabulary.standard.find? word, op.isPure = true) :
    ∃ r : Report, (∃ n, ∀ fuel ≥ n, run fuel lib text scope h = some r) ∧
      (∀ v, r.result = .ok v ↔
        StackMachine.run scope h ((words text).map (Token.ofWord .standard)) = some [v]) ∧
      r.state.scope = scope ∧ r.state.heap = h ∧ r.state.printer = .terminal "" := by
  match hp : Program.read .standard text with
  | .error e =>
    refine ⟨⟨.error (.read e), lib, ⟨scope, h, {}, .terminal ""⟩⟩, ⟨0, ?_⟩, ?_, rfl, rfl, rfl⟩
    · intro fuel _
      simp only [run, runWith, hp]
    · intro v
      refine ⟨by rintro ⟨⟩, ?_⟩
      intro hv
      obtain ⟨t, ht, _⟩ := Forest.run_eq_singleton_iff.1 hv
      obtain ⟨p, hp'⟩ := Program.exists_read_of_foldlM_push ht
      rw [hp] at hp'
      cases hp'
  | .ok p =>
    let s : State := ⟨scope, h, {}, .terminal ""⟩
    obtain ⟨n, _, fuel, hfuel⟩ := (Program.follows_of_read hp hpure lib).evaluates (s := s) rfl
    refine ⟨⟨((p.graph.unfold p.root).evaluate scope h).mapError .fault, lib.add p.graph,
      State.tick^[n] s⟩, ⟨fuel, ?_⟩, ?_, by simp [s], by simp [s], by simp [s]⟩
    · intro fuel' hle
      simp only [run, runWith, hp]
      rw [show evaluate fuel' (lib.add p.graph) ⟨lib.next, p.root⟩ s = _ from
        Machine.run_of_le hfuel hle]
      rfl
    · -- The orders of evaluation differ, and with them the first error. Success does not.
      intro v
      have htree := Program.foldlM_push_of_read hp
      have hok : ((p.graph.unfold p.root).evaluate scope h).mapError RunError.fault = .ok v ↔
          (p.graph.unfold p.root).evaluate scope h = .ok v := by
        cases (p.graph.unfold p.root).evaluate scope h with
        | error f => exact iff_of_false (by rintro ⟨⟩) (by rintro ⟨⟩)
        | ok w =>
          exact ⟨fun hw => congrArg _ (Except.ok.inj hw), fun hw => congrArg _ (Except.ok.inj hw)⟩
      rw [hok, Forest.run_eq_singleton_iff]
      constructor
      · intro hv
        exact ⟨_, htree, hv⟩
      · rintro ⟨t, ht, hv⟩
        obtain ⟨rfl, _⟩ := List.cons.inj (Option.some.inj (htree.symm.trans ht))
        exact hv

theorem run_eq_stackMachine_sub :
    ∃ r : Report,
      (∃ n, ∀ fuel ≥ n, run fuel {} "2 x -" (({} : Scope).bind "x" (.number 5)) {} = some r) ∧
        r.result = .ok (.number 3) ∧ r.state.printer = .terminal "" := by
  obtain ⟨r, hr, hv, _, _, hprinter⟩ :=
    run_eq_stackMachine {} "2 x -" (({} : Scope).bind "x" (.number 5)) {} (by decide)
  exact ⟨r, hr, (hv _).2 rfl, hprinter⟩

end ReversePolish
