import ReversePolish.Proofs.Legibility

/-!
Evaluation does not depend on where the nodes are. When graphs and nodes get other numbers, a
machine that has its places renumbered makes the same steps over the renumbered library, as long as
what it looks at is the same there.
-/

namespace ReversePolish

structure Relocation where
  graph : Nat → Nat
  node : Nat → Nat → Nat

namespace Relocation

variable (ρ : Relocation)

def place (p : Place) : Place :=
  ⟨ρ.graph p.graph, ρ.node p.graph p.node⟩

def value : Value → Value
  | .deferred origin body => .deferred origin (ρ.place body)
  | v => v

def content (graph : Nat) : Node → Node
  | .apply op operands => .apply op (operands.map (ρ.node graph))
  | n => n

def pending (graph : Nat) : Pending → Pending
  | .operands done rest => .operands (done.map ρ.value) (rest.map (ρ.node graph))
  | .length target => .length (ρ.node graph target)
  | .assigned target => .assigned (ρ.node graph target)
  | .element array index => .element (ρ.node graph array) (ρ.node graph index)
  | .index array x => .index (ρ.node graph array) x
  | .array index x => .array index x
  | .sequence rest => .sequence (rest.map (ρ.node graph))
  | .condition yes no => .condition (ρ.node graph yes) (ρ.node graph no)
  | .result => .result
  | .check condition body => .check (ρ.node graph condition) (ρ.node graph body)
  | .test condition body last =>
    .test (ρ.node graph condition) (ρ.node graph body) (last.map ρ.value)
  | .pass condition body => .pass (ρ.node graph condition) (ρ.node graph body)
  | .start name stop body => .start name (ρ.node graph stop) (ρ.node graph body)
  | .stop name start body => .stop name start (ρ.node graph body)
  | .count name next stop body => .count name next stop (ρ.node graph body)
  | .callee => .callee
  | .line => .line

def frame (f : Frame) : Frame :=
  ⟨ρ.graph f.graph, f.operation, ρ.pending f.graph f.pending⟩

def effect : Effect → Effect
  | .bind name v => .bind name (ρ.value v)
  | e => e

def response (graph : Nat) : Response → Response
  | .ok (e, .await p pending) => .ok (ρ.effect e, .await (ρ.place p) (ρ.pending graph pending))
  | .ok (e, .finish v) => .ok (ρ.effect e, .finish (ρ.value v))
  | .error cause => .error cause

def control : Control → Control
  | .enter p => .enter (ρ.place p)
  | .deliver v => .deliver (ρ.value v)

theorem response_bind {α : Type} (graph : Nat) (x : Except Cause α) (f : α → Response) :
    ρ.response graph (x >>= f) = x >>= fun a => ρ.response graph (f a) := by
  cases x <;> rfl

@[simp] theorem toNumber_value (v : Value) : (ρ.value v).toNumber = v.toNumber := by
  match v with
  | .deferred .subroutine _ | .deferred .loopBody _ => rfl
  | .number _ | .boolean _ | .array _ | .nop => rfl

@[simp] theorem toInteger_value (v : Value) : (ρ.value v).toInteger = v.toInteger := by
  rw [Value.toInteger, toNumber_value, Value.toInteger]

theorem sameSort_value (v w : Value) : (ρ.value v).sameSort (ρ.value w) = v.sameSort w := by
  cases v <;> cases w <;> rfl

theorem value_of_isScalar {v : Value} (h : v.IsScalar) : ρ.value v = v := by
  cases v with
  | deferred _ _ => exact h.elim
  | _ => rfl

variable {ρ} {lib lib' : Library} {h : Heap} {op : Operation} {v : Value}

theorem applyPure_map {vs : List Value}
    (heq : ∀ a ∈ vs, ∀ b ∈ vs, (ρ.value a).equal h (ρ.value b) = a.equal h b) :
    op.applyPure h (vs.map ρ.value) = op.applyPure h vs := by
  match vs with
  | [] => rfl
  | [a] =>
    change op.applyUnary (ρ.value a) = op.applyUnary a
    rw [Operation.applyUnary, toNumber_value, Operation.applyUnary]
  | [a, b] =>
    change op.applyBinary h (ρ.value a) (ρ.value b) = op.applyBinary h a b
    have hab := heq a (by simp) b (by simp)
    by_cases hop : op ≠ .eq ∧ op ≠ .ne
    · rw [Operation.applyBinary_eq hop, Operation.applyBinary_eq hop, toNumber_value,
        toNumber_value]
    · cases op with
      | eq | ne => simp only [Operation.applyBinary, Value.agrees, sameSort_value, hab]
      | _ => simp at hop
  | a :: b :: c :: rest =>
    change Except.error (Cause.arityMismatch op ((a :: b :: c :: rest).map ρ.value).length) =
      Except.error (Cause.arityMismatch op (a :: b :: c :: rest).length)
    rw [List.length_map]

end Relocation

theorem Frame.enter_nil_of_isPure {lib : Library} {graph : Nat} {op : Operation}
    (hpure : op.isPure = true) : enter lib graph op [] = .error (.arityMismatch op 0) := by
  rw [enter.eq_def, if_pos hpure]

theorem Frame.enter_cons_of_isPure {lib : Library} {graph : Nat} {op : Operation} {x : Nat}
    {xs : List Nat} (hpure : op.isPure = true) :
    enter lib graph op (x :: xs) = Response.await graph x (.operands [] xs) := by
  rw [enter.eq_def, if_pos hpure]

theorem Frame.enter_of_length_ne {lib : Library} {graph : Nat} {op : Operation} {operands : List Nat}
    (hpure : op.isPure = false) (hlen : operands.length ≠ op.arity) :
    enter lib graph op operands = .error (.arityMismatch op operands.length) := by
  rw [enter.eq_def, if_neg (by simp [hpure])]
  split
  all_goals first
    | rfl
    | exact absurd rfl hlen

namespace Relocation

variable {ρ : Relocation} {lib lib' : Library} {h : Heap} {op : Operation} {v : Value} {graph : Nat}
  {operands : List Nat}

theorem enter_map
    (htarget : ∀ x, (Node.apply op operands).target? = some x →
      lib'.targetName op (ρ.place ⟨graph, x⟩) = lib.targetName op ⟨graph, x⟩) :
    Frame.enter lib' (ρ.graph graph) op (operands.map (ρ.node graph)) =
      ρ.response graph (Frame.enter lib graph op operands) := by
  match hpure : op.isPure with
  | true =>
    cases operands with
    | nil =>
      rw [List.map_nil, Frame.enter_nil_of_isPure hpure, Frame.enter_nil_of_isPure hpure]
      rfl
    | cons x xs =>
      rw [List.map_cons, Frame.enter_cons_of_isPure hpure, Frame.enter_cons_of_isPure hpure]
      rfl
  | false =>
    by_cases hlen : operands.length = op.arity
    · cases op with
      | alloc =>
        match operands, hlen with
        | [x], _ =>
          change lib'.targetName .alloc (ρ.place ⟨graph, x⟩) >>= _ =
            ρ.response graph (lib.targetName .alloc ⟨graph, x⟩ >>= _)
          rw [htarget x rfl, response_bind]
          rfl
      | define =>
        match operands, hlen with
        | [x, body], _ =>
          change lib'.targetName .define (ρ.place ⟨graph, x⟩) >>= _ =
            ρ.response graph (lib.targetName .define ⟨graph, x⟩ >>= _)
          rw [htarget x rfl, response_bind]
          rfl
      | forLoop =>
        match operands, hlen with
        | [x, start, stop, body], _ =>
          change lib'.targetName .forLoop (ρ.place ⟨graph, x⟩) >>= _ =
            ρ.response graph (lib.targetName .forLoop ⟨graph, x⟩ >>= _)
          rw [htarget x rfl, response_bind]
          rfl
      | nop => match operands, hlen with | [], _ => rfl
      | call | print => match operands, hlen with | [_], _ => rfl
      | allocArray | assign | prog2 | whileLoop => match operands, hlen with | [_, _], _ => rfl
      | store | prog3 | branch => match operands, hlen with | [_, _, _], _ => rfl
      | prog4 => match operands, hlen with | [_, _, _, _], _ => rfl
      | _ => cases hpure
    · have hlen' : (operands.map (ρ.node graph)).length ≠ op.arity := by rwa [List.length_map]
      rw [Frame.enter_of_length_ne hpure hlen, Frame.enter_of_length_ne hpure hlen', List.length_map]
      rfl

theorem count_map {name : String} {next stop : Int} {body : Nat} (last : Option Value) :
    Frame.count (ρ.graph graph) name next stop (ρ.node graph body) (last.map ρ.value) =
      ρ.response graph (Frame.count graph name next stop body last) := by
  rw [Frame.count, Frame.count]
  split
  · rfl
  · cases last <;> rfl

theorem resume_map {pending : Pending} {scope scope' : Scope}
    (htarget : ∀ x, pending.inspected? v = some x →
      lib'.targetName op (ρ.place ⟨graph, x⟩) = lib.targetName op ⟨graph, x⟩)
    (hline : pending = .line → (ρ.value v).render lib' h = v.render lib h)
    (hequal : ∀ done, pending = .operands done [] → ∀ a ∈ v :: done, ∀ b ∈ v :: done,
      (ρ.value a).equal h (ρ.value b) = a.equal h b) :
    (ρ.frame ⟨graph, op, pending⟩).resume lib' scope' h (ρ.value v) =
      ρ.response graph (Frame.resume lib scope h ⟨graph, op, pending⟩ v) := by
  cases pending with
  | operands done rest =>
    match rest with
    | x :: xs => rfl
    | [] =>
      have happly : op.applyPure h (ρ.value v :: done.map ρ.value).reverse =
          op.applyPure h (v :: done).reverse := by
        rw [← List.map_cons, ← List.map_reverse]
        apply applyPure_map
        intro a ha b hb
        exact hequal done rfl a (List.mem_reverse.1 ha) b (List.mem_reverse.1 hb)
      change op.applyPure h (ρ.value v :: done.map ρ.value).reverse >>= _ =
        ρ.response graph (op.applyPure h (v :: done).reverse >>= _)
      rw [happly]
      -- The result is never deferred, so nothing is left to renumber in it.
      match hr : op.applyPure h (v :: done).reverse with
      | .error cause => rfl
      | .ok r =>
        change Response.finish r = Response.finish (ρ.value r)
        rw [value_of_isScalar ρ (Operation.isScalar_applyPure hr)]
  | length target =>
    change (ρ.value v).toInteger >>= _ = ρ.response graph (v.toInteger >>= _)
    rw [toInteger_value]
    cases hn : v.toInteger with
    | error cause => rfl
    | ok n =>
      change (if n < 0 then _ else _) = ρ.response graph (if n < 0 then _ else _)
      split
      · rfl
      · split
        · rfl
        · have hinspected : Pending.inspected? v (.length target) = some target :=
            Pending.inspected?_length hn (by omega) (by omega)
          change lib'.targetName op (ρ.place ⟨graph, target⟩) >>= _ =
            ρ.response graph (lib.targetName op ⟨graph, target⟩ >>= _)
          rw [htarget target hinspected, response_bind]
          rfl
  | assigned target =>
    change Frame.resume lib' scope' h ⟨ρ.graph graph, op, .assigned (ρ.node graph target)⟩ _ = _
    rw [Frame.resume_assigned, Frame.resume_assigned]
    change lib'.targetName op (ρ.place ⟨graph, target⟩) >>= _ = _
    rw [htarget target rfl, response_bind]
    rfl
  | element array index =>
    change (ρ.value v).toNumber >>= _ = ρ.response graph (v.toNumber >>= _)
    rw [toNumber_value, response_bind]
    rfl
  | index array x =>
    change (ρ.value v).toInteger >>= _ = ρ.response graph (v.toInteger >>= _)
    rw [toInteger_value, response_bind]
    congr 1
    funext i
    split <;> rfl
  | array index x =>
    match v with
    | .array id =>
      change (if index < h.length id then _ else _) =
        ρ.response graph (if index < h.length id then _ else _)
      split <;> rfl
    | .deferred .subroutine _ | .deferred .loopBody _ => rfl
    | .number _ | .boolean _ | .nop => rfl
  | sequence rest => cases rest <;> rfl
  | condition yes no =>
    match v with
    | .boolean true | .boolean false => rfl
    | .deferred .subroutine _ | .deferred .loopBody _ => rfl
    | .number _ | .array _ | .nop => rfl
  | check condition body =>
    match v with
    | .deferred .subroutine _ | .deferred .loopBody _ => rfl
    | .number _ | .boolean _ | .array _ | .nop => rfl
  | test condition body last =>
    match v with
    | .boolean false => cases last <;> rfl
    | .boolean true => rfl
    | .deferred .subroutine _ | .deferred .loopBody _ => rfl
    | .number _ | .array _ | .nop => rfl
  | start name stop body =>
    change (ρ.value v).toInteger >>= _ = ρ.response graph (v.toInteger >>= _)
    rw [toInteger_value, response_bind]
    rfl
  | stop name start body =>
    change (ρ.value v).toInteger >>= _ = ρ.response graph (v.toInteger >>= _)
    rw [toInteger_value, response_bind]
    congr 1
    funext i
    exact count_map none
  | count name next stop body => exact count_map (some v)
  | callee =>
    match v with
    | .deferred .subroutine _ | .deferred .loopBody _ => rfl
    | .number _ | .boolean _ | .array _ | .nop => rfl
  | line =>
    change Except.ok (Effect.println ((ρ.value v).render lib' h), _) = _
    rw [hline rfl]
    rfl
  | result | pass => rfl

/-- The states differ only in places, as far as the names are in sight. -/
structure Alike (ρ : Relocation) (seen : String → Prop) (s s' : State) : Prop where
  scope : ∀ name, seen name → s'.scope.find? name = (s.scope.find? name).map ρ.value
  heap : s'.heap = s.heap
  meter : s'.meter = s.meter
  printer : s'.printer = s.printer

structure Agree (ρ : Relocation) (seen : String → Prop) (m m' : Machine) : Prop where
  control : m'.control = ρ.control m.control
  frames : m'.frames = m.frames.map ρ.frame
  state : ρ.Alike seen m.state m'.state

structure Same (ρ : Relocation) (seen : String → Prop) (o o' : Outcome) : Prop where
  result : o'.result = o.result.map ρ.value
  state : ρ.Alike seen o.state o'.state

structure Matches (ρ : Relocation) (lib lib' : Library) (seen : String → Prop) (m : Machine) :
    Prop where
  node : ∀ p, m.visited? = some p →
    lib'.node? (ρ.place p) = (lib.node? p).map (ρ.content p.graph)
  missing : ∀ p, m.visited? = some p → lib.node? p = none → (ρ.place p).node = p.node
  var : ∀ p name, m.visited? = some p → lib.node? p = some (.var name) → seen name
  target : ∀ q op, m.inspected? lib = some q →
    lib'.targetName op (ρ.place q) = lib.targetName op q
  line : ∀ v, m.printed? = some v →
    (ρ.value v).render lib' m.state.heap = v.render lib m.state.heap
  equal : ∀ vs, m.combined? = some vs → ∀ a ∈ vs, ∀ b ∈ vs,
    (ρ.value a).equal m.state.heap (ρ.value b) = a.equal m.state.heap b

variable {seen : String → Prop} {s s' : State} {m m' : Machine} {p : Place} {frames : List Frame}

theorem Alike.tick (hs : ρ.Alike seen s s') : ρ.Alike seen s.tick s'.tick where
  scope := hs.scope
  heap := hs.heap
  meter := congrArg Meter.tick hs.meter
  printer := hs.printer

theorem Alike.bind (hs : ρ.Alike seen s s') (name : String) (v : Value) :
    ρ.Alike seen (s.apply (.bind name v)) (s'.apply (.bind name (ρ.value v))) where
  scope other hother := by
    simp only [State.apply, Scope.find?_bind]
    split
    · rfl
    · exact hs.scope other hother
  heap := hs.heap
  meter := hs.meter
  printer := hs.printer

theorem Alike.apply (hs : ρ.Alike seen s s') (e : Effect) :
    ρ.Alike seen (s.apply e) (s'.apply (ρ.effect e)) := by
  cases e with
  | none => exact hs
  | bind name v => exact hs.bind name v
  | bindZeros name length =>
    refine ⟨?_, congrArg (Heap.addZeros · length) hs.heap, hs.meter, hs.printer⟩
    have hscope := (hs.bind name (.array s.heap.next)).scope
    simpa only [State.apply, effect, value, hs.heap] using hscope
  | store id index x =>
    exact ⟨hs.scope, congrArg (Heap.set · id index x) hs.heap, hs.meter, hs.printer⟩
  | println line =>
    exact ⟨hs.scope, hs.heap, hs.meter, congrArg (Printer.println · line) hs.printer⟩

theorem rel_fail (hs : ρ.Alike seen s s') (cause : Cause) :
    Turn.Rel (ρ.Agree seen) (ρ.Same seen) (Machine.fail frames s cause)
      (Machine.fail (frames.map ρ.frame) s' cause) := by
  have hhead : (frames.map ρ.frame).head?.map (·.operation) = frames.head?.map (·.operation) := by
    cases frames <;> rfl
  rw [Machine.fail, Machine.fail, hhead]
  exact .done ⟨rfl, hs⟩

theorem rel_settle (hs : ρ.Alike seen s s') (r : Response) :
    Turn.Rel (ρ.Agree seen) (ρ.Same seen) (Machine.settle graph op frames s r)
      (Machine.settle (ρ.graph graph) op (frames.map ρ.frame) s' (ρ.response graph r)) := by
  match r with
  | .ok (e, .await p pending) => exact .next ⟨rfl, rfl, hs.apply e⟩
  | .ok (e, .finish v) => exact .next ⟨rfl, rfl, hs.apply e⟩
  | .error cause => exact .done ⟨rfl, hs⟩

theorem rel_visit (hnode : lib'.node? (ρ.place p) = (lib.node? p).map (ρ.content p.graph))
    (hmissing : lib.node? p = none → (ρ.place p).node = p.node)
    (hvar : ∀ name, lib.node? p = some (.var name) → seen name)
    (htarget : ∀ n x op, lib.node? p = some n → n.target? = some x →
      lib'.targetName op (ρ.place ⟨p.graph, x⟩) = lib.targetName op ⟨p.graph, x⟩)
    (hs : ρ.Alike seen s s') :
    Turn.Rel (ρ.Agree seen) (ρ.Same seen) (Machine.visit lib p frames s)
      (Machine.visit lib' (ρ.place p) (frames.map ρ.frame) s') := by
  rw [Machine.visit, Machine.visit, hnode]
  cases hn : lib.node? p with
  | none =>
    dsimp only [Option.map_none]
    rw [hmissing hn]
    exact rel_fail hs _
  | some n =>
    cases n with
    | num x => exact .next ⟨rfl, rfl, hs⟩
    | var name =>
      dsimp only [Option.map_some, content]
      rw [hs.scope name (hvar name hn)]
      cases s.scope.find? name with
      | none => exact rel_fail hs _
      | some v => exact .next ⟨rfl, rfl, hs⟩
    | apply op operands =>
      have henter : Frame.enter lib' (ρ.graph p.graph) op (operands.map (ρ.node p.graph)) =
          ρ.response p.graph (Frame.enter lib p.graph op operands) :=
        enter_map fun x hx => htarget _ x op hn hx
      dsimp only [Option.map_some, content]
      rw [show (ρ.place p).graph = ρ.graph p.graph from rfl, henter]
      exact rel_settle hs _

theorem rel_step (hm : ρ.Matches lib lib' seen m) (h : ρ.Agree seen m m') :
    Turn.Rel (ρ.Agree seen) (ρ.Same seen) (m.step lib) (m'.step lib') := by
  obtain ⟨control, frames, s⟩ := m
  obtain ⟨_, _, s'⟩ := m'
  obtain ⟨rfl, rfl, hs⟩ := h
  cases control with
  | enter p =>
    have hmeter : s'.tick.meter.overrun? = s.tick.meter.overrun? := by rw [hs.tick.meter]
    simp only [Machine.step, control, hmeter]
    cases ho : s.tick.meter.overrun? with
    | some budget => exact rel_fail hs.tick _
    | none =>
      have hp : Machine.visited? ⟨.enter p, frames, s⟩ = some p := by simp only [Machine.visited?, ho]
      refine rel_visit (hm.node p hp) (hm.missing p hp) (hm.var p · hp) ?_ hs.tick
      intro n x op hn hx
      refine hm.target _ op ?_
      simp only [Machine.inspected?, hp, Option.bind_some, Library.target?, hn, hx, Option.map_some]
  | deliver v =>
    cases frames with
    | nil => exact .done ⟨rfl, hs⟩
    | cons f fs =>
      obtain ⟨graph, op, pending⟩ := f
      have hf : (ρ.frame ⟨graph, op, pending⟩).resume lib' s'.scope s.heap (ρ.value v) =
          ρ.response graph (Frame.resume lib s.scope s.heap ⟨graph, op, pending⟩ v) := by
        apply resume_map
        · intro x hx
          refine hm.target ⟨graph, x⟩ op ?_
          simp only [Machine.inspected?, hx, Option.map_some]
        · rintro rfl
          exact hm.line v rfl
        · rintro done rfl
          exact hm.equal (v :: done) rfl
      simp only [Machine.step, control, List.map_cons]
      rw [hs.heap, hf]
      exact rel_settle hs _

theorem targetName_place (hnode : lib'.node? (ρ.place p) = (lib.node? p).map (ρ.content p.graph))
    (hmissing : lib.node? p = none → (ρ.place p).node = p.node)
    (hrender : ∀ n, lib.node? p = some n → (∀ name, n ≠ .var name) →
      lib'.render (ρ.place p) = lib.render p) (op : Operation) :
    lib'.targetName op (ρ.place p) = lib.targetName op p := by
  rw [Library.targetName, Library.targetName, hnode]
  cases hn : lib.node? p with
  | none =>
    dsimp only [Option.map_none]
    rw [hmissing hn]
  | some n =>
    cases n with
    | var name => rfl
    | num _ | apply _ _ =>
      dsimp only [Option.map_some, content]
      rw [hrender _ hn (by simp)]

theorem render_value (hrender : ∀ origin body, v = .deferred origin body →
      lib'.render (ρ.place body) = lib.render body) :
    (ρ.value v).render lib' h = v.render lib h := by
  match v with
  | .deferred .subroutine p | .deferred .loopBody p =>
    simp only [value, Value.render, hrender _ p rfl]
  | .number _ | .boolean true | .boolean false | .array _ | .nop => rfl

theorem equal_value {place : Place → Prop}
    (hinj : ∀ {p q}, place p → place q → ρ.place p = ρ.place q → p = q) {a b : Value}
    (ha : a.Within fun _ => place) (hb : b.Within fun _ => place) :
    (ρ.value a).equal h (ρ.value b) = a.equal h b := by
  match a, b with
  | .deferred o p, .deferred o' q =>
    have hplace : (ρ.place p == ρ.place q) = (p == q) := by
      rw [Bool.eq_iff_iff, beq_iff_eq, beq_iff_eq]
      exact ⟨hinj ha hb, congrArg ρ.place⟩
    change (o == o' && ρ.place p == ρ.place q) = (o == o' && p == q)
    rw [hplace]
  | .deferred _ _, .number _ | .deferred _ _, .boolean _ | .deferred _ _, .array _
  | .deferred _ _, .nop => rfl
  | .number _, b | .boolean _, b | .array _, b | .nop, b => cases b <;> rfl

/-- The nodes at these places are found again, each at a place of its own. -/
structure Embedding (ρ : Relocation) (lib lib' : Library) (place : Place → Prop)
    (seen : String → Prop) : Prop where
  operand {p : Place} {op : Operation} {operands : List Nat} {x : Nat} : place p →
    lib.node? p = some (.apply op operands) → x ∈ operands → place ⟨p.graph, x⟩
  node {p : Place} : place p → lib'.node? (ρ.place p) = (lib.node? p).map (ρ.content p.graph)
  missing {p : Place} : place p → lib.node? p = none → (ρ.place p).node = p.node
  injective {p q : Place} : place p → place q → ρ.place p = ρ.place q → p = q
  var {p : Place} {name : String} : place p → lib.node? p = some (.var name) → seen name

namespace Embedding

variable {place : Place → Prop} (hρ : ρ.Embedding lib lib' place seen)

include hρ

def invariant : Invariant lib :=
  .ofSeen place seen hρ.operand hρ.var

theorem written {q : Place} (hm : hρ.invariant.Holds m) (hq : m.Writes lib q) : place q := by
  cases hq with
  | printed hv => exact hm.printed hv
  | refused hq => exact hm.inspected hq

theorem matched (hm : hρ.invariant.Holds m)
    (hrender : ∀ q, m.Writes lib q → lib'.render (ρ.place q) = lib.render q) :
    ρ.Matches lib lib' seen m where
  node p hp := hρ.node (hm.visited hp)
  missing p hp := hρ.missing (hm.visited hp)
  var p name hp := hρ.var (hm.visited hp)
  target q op hq :=
    targetName_place (hρ.node (hm.inspected hq)) (hρ.missing (hm.inspected hq))
      (fun n hn hvar => hrender q (.refused hq hn hvar)) op
  line v hv := by
    apply render_value
    rintro origin body rfl
    exact hrender body (.printed hv)
  equal vs hvs a ha b hb :=
    equal_value hρ.injective (hm.combined hvs a ha) (hm.combined hvs b hb)

end Embedding

theorem content_eq_self {g : Nat} (h : ∀ x, ρ.node g x = x) (n : Node) : ρ.content g n = n := by
  cases n with
  | apply op operands =>
    have hmap : operands.map (ρ.node g) = operands := by
      rw [funext h]
      exact operands.map_id
    rw [content, hmap]
  | _ => rfl

theorem map_content_eq_self {g : Nat} (h : ∀ x, ρ.node g x = x) (n : Option Node) :
    n.map (ρ.content g) = n := by
  cases n with
  | none => rfl
  | some n => rw [Option.map_some, content_eq_self h]

theorem value_eq_self (hv : v.Within fun _ body => ρ.place body = body) : ρ.value v = v := by
  cases v with
  | deferred origin body => rw [value, hv]
  | _ => rfl

section Regraph

def regraph (source target : Nat) : Relocation where
  graph g := if g = source then target else g
  node _ id := id

variable {source target : Nat}

theorem place_regraph_self (source target id : Nat) :
    (regraph source target).place ⟨source, id⟩ = ⟨target, id⟩ := by
  simp [place, regraph]

theorem place_regraph_of_ne (h : p.graph ≠ source) : (regraph source target).place p = p := by
  simp [place, regraph, h]

theorem value_regraph (hv : v.Within fun _ body => body.graph ≠ source) :
    (regraph source target).value v = v :=
  value_eq_self (hv.imp fun _ _ => place_regraph_of_ne)

end Regraph

end Relocation

end ReversePolish
