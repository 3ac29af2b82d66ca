import ReversePolish.Machine.Frame
import ReversePolish.Proofs.ArithmeticLaws

namespace ReversePolish

theorem Library.targetName_eq_ok {lib : Library} {op : Operation} {p : Place} {name : String}
    (h : lib.targetName op p = .ok name) : lib.node? p = some (.var name) := by
  rw [Library.targetName] at h
  split at h
  · cases h
  · next hn =>
    obtain rfl := Except.ok.inj h
    exact hn
  · cases h

theorem Library.targetName_eq_error {lib : Library} {op : Operation} {p : Place} {cause : Cause}
    (h : lib.targetName op p = .error cause) :
    cause.category = .notAVariable ∨ lib.node? p = none ∧ cause = .notAnExpression p.node := by
  rw [Library.targetName] at h
  split at h
  · next hn =>
    obtain rfl := Except.error.inj h
    exact .inr ⟨hn, rfl⟩
  · cases h
  · obtain rfl := Except.error.inj h
    exact .inl rfl

namespace Response

def Fails (P : Cause → Prop) : Response → Prop
  | .ok _ => True
  | .error cause => P cause

theorem Fails.cause {P : Cause → Prop} {r : Response} {cause : Cause} (h : r.Fails P)
    (hr : r = .error cause) : P cause := by
  subst hr
  exact h

theorem Fails.imp {P Q : Cause → Prop} {r : Response} (h : r.Fails P)
    (hPQ : ∀ cause, P cause → Q cause) : r.Fails Q := by
  cases r with
  | ok a => trivial
  | error cause => exact hPQ cause h

theorem fails_bind {α : Type} {P : Cause → Prop} {x : Except Cause α} {f : α → Response}
    (hx : ∀ cause, x = .error cause → P cause) (hf : ∀ a, Fails P (f a)) : Fails P (x >>= f) := by
  cases x with
  | error cause => exact hx cause rfl
  | ok a => exact hf a

def Does (P : Effect → Prop) : Response → Prop
  | .ok (effect, _) => P effect
  | .error _ => True

theorem Does.imp {P Q : Effect → Prop} {r : Response} (h : r.Does P) (hPQ : ∀ e, P e → Q e) :
    r.Does Q := by
  match r with
  | .ok (effect, _) => exact hPQ effect h
  | .error _ => trivial

theorem does_bind {α : Type} {P : Effect → Prop} {x : Except Cause α} {f : α → Response}
    (hf : ∀ a, Does P (f a)) : Does P (x >>= f) := by
  cases x with
  | error cause => trivial
  | ok a => exact hf a

end Response

def Pending.target? : Pending → Option Nat
  | .length target | .assigned target => some target
  | _ => none

def Effect.Immediate : Effect → Prop
  | .none | .bind _ _ => True
  | _ => False

def Pending.MayDo : Pending → Effect → Prop
  | _, .none => True
  | .assigned _, .bind _ _ | .stop _ _ _, .bind _ _ | .count _ _ _ _, .bind _ _ => True
  | .length _, .bindZeros _ _ => True
  | .array _ _, .store _ _ _ => True
  | .line, .println _ => True
  | _, _ => False

namespace Frame

open Response

variable {lib : Library} {graph : Nat} {op : Operation} {operands : List Nat} {scope : Scope}
  {h : Heap} {f : Frame} {v : Value}

inductive Rejects (lib : Library) (graph : Nat) (op : Operation) (operands : List Nat) :
    Cause → Prop
  | arity : operands.length ≠ op.arity →
      Rejects lib graph op operands (.arityMismatch op operands.length)
  | target {x cause} : x ∈ operands → lib.targetName op ⟨graph, x⟩ = .error cause →
      Rejects lib graph op operands cause

inductive Breaks (lib : Library) (h : Heap) (f : Frame) (v : Value) : Cause → Prop
  | value {cause} : cause.category ∈ [.type, .index, .notAnArray, .subroutine] →
      Breaks lib h f v cause
  | target {x cause} : f.pending.target? = some x →
      lib.targetName f.operation ⟨f.graph, x⟩ = .error cause → Breaks lib h f v cause
  | applied {done cause} : f.pending = .operands done [] →
      f.operation.Refuses (done.length + 1) cause → Breaks lib h f v cause

theorem fails_enter : Fails (Rejects lib graph op operands) (enter lib graph op operands) := by
  by_cases hlen : operands.length = op.arity
  · cases op with
    | alloc =>
      match operands, hlen with
      | [_], _ => exact fails_bind (fun _ => .target (by simp)) fun _ => trivial
    | define =>
      match operands, hlen with
      | [_, _], _ => exact fails_bind (fun _ => .target (by simp)) fun _ => trivial
    | forLoop =>
      match operands, hlen with
      | [_, _, _, _], _ => exact fails_bind (fun _ => .target (by simp)) fun _ => trivial
    | nop => match operands, hlen with | [], _ => trivial
    | call | print => match operands, hlen with | [_], _ => trivial
    | allocArray | assign | prog2 | whileLoop => match operands, hlen with | [_, _], _ => trivial
    | store | prog3 | branch => match operands, hlen with | [_, _, _], _ => trivial
    | prog4 => match operands, hlen with | [_, _, _, _], _ => trivial
    | _ => match operands, hlen with | _ :: _, _ => trivial
  · rw [enter.eq_def]
    split
    · match operands with
      | [] => exact .arity hlen
      | x :: xs => trivial
    · split
      all_goals first
        | exact .arity hlen
        | exact absurd rfl hlen

theorem fails_count {P : Cause → Prop} {name : String} {next stop : Int} {body : Nat}
    {last : Option Value} : Fails P (count graph name next stop body last) := by
  rw [count]
  split <;> trivial

theorem fails_toInteger {r : Int → Response} (hr : ∀ i, Fails (Breaks lib h f v) (r i)) :
    Fails (Breaks lib h f v) (v.toInteger >>= r) :=
  fails_bind (fun _ hc => .value (by simp [Value.category_toInteger hc])) hr

theorem fails_resume : Fails (Breaks lib h f v) (resume lib scope h f v) := by
  obtain ⟨graph, op, pending⟩ := f
  cases pending with
  | operands done rest =>
    match rest with
    | x :: xs => trivial
    | [] =>
      refine fails_bind ?_ fun _ => trivial
      intro cause hc
      exact .applied rfl (by simpa using Operation.refuses_applyPure hc)
  | length target =>
    apply fails_toInteger
    intro n
    split
    · exact .value (by simp [Cause.category])
    · split
      · exact .value (by simp [Cause.category])
      · exact fails_bind (fun _ => .target rfl) fun _ => trivial
  | assigned target =>
    rw [resume_assigned]
    exact fails_bind (fun _ hc => .target (x := target) rfl hc) fun _ => trivial
  | element array index =>
    exact fails_bind (fun _ hc => .value (by simp [Value.category_toNumber hc])) fun _ => trivial
  | index array x =>
    apply fails_toInteger
    intro i
    split
    · exact .value (by simp [Cause.category])
    · trivial
  | array index x =>
    simp only [resume]
    split
    · split
      · trivial
      · exact .value (by simp [Cause.category])
    · exact .value (by simp [Cause.category])
  | sequence rest => cases rest <;> trivial
  | condition yes no =>
    cases v with
    | boolean b => trivial
    | _ => exact .value (by simp [Cause.category])
  | check condition body =>
    cases v with
    | boolean b => trivial
    | _ => exact .value (by simp [Cause.category])
  | test condition body last =>
    cases v with
    | boolean b => cases b <;> trivial
    | _ => exact .value (by simp [Cause.category])
  | start name stop body => exact fails_toInteger fun _ => trivial
  | stop name start body => exact fails_toInteger fun _ => fails_count
  | count name next stop body => exact fails_count
  | callee =>
    simp only [resume]
    split
    · trivial
    · exact .value (by simp [Cause.category])
  | result | pass | line => trivial

theorem does_enter : Does Effect.Immediate (enter lib graph op operands) := by
  rw [enter.eq_def]
  split
  · cases operands <;> trivial
  · split
    all_goals first
      | trivial
      | exact does_bind fun _ => trivial

theorem does_count {name : String} {next stop : Int} {body : Nat} {last : Option Value}
    {P : Effect → Prop} (hnone : P .none) (hbind : ∀ name v, P (.bind name v)) :
    Does P (count graph name next stop body last) := by
  rw [count]
  split
  · exact hbind _ _
  · exact hnone

theorem does_resume : Does f.pending.MayDo (resume lib scope h f v) := by
  obtain ⟨graph, op, pending⟩ := f
  cases pending with
  | operands done rest =>
    match rest with
    | x :: xs => trivial
    | [] => exact does_bind fun _ => trivial
  | length target =>
    apply does_bind
    intro n
    split
    · trivial
    · split
      · trivial
      · exact does_bind fun _ => trivial
  | assigned target =>
    rw [resume_assigned]
    exact does_bind fun _ => trivial
  | element array index => exact does_bind fun _ => trivial
  | index array x =>
    apply does_bind
    intro i
    split <;> trivial
  | array index x =>
    simp only [resume]
    split
    · split <;> trivial
    · trivial
  | sequence rest => cases rest <;> trivial
  | condition yes no => cases v <;> trivial
  | check condition body => cases v <;> trivial
  | test condition body last =>
    cases v with
    | boolean b => cases b <;> trivial
    | _ => trivial
  | start name stop body => exact does_bind fun _ => trivial
  | stop name start body => exact does_bind fun _ => does_count trivial fun _ _ => trivial
  | count name next stop body => exact does_count trivial fun _ _ => trivial
  | callee =>
    simp only [resume]
    split <;> trivial
  | result | pass | line => trivial

end Frame

end ReversePolish
