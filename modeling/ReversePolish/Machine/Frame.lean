import ReversePolish.Arithmetic
import ReversePolish.Display
import ReversePolish.Machine.State

namespace ReversePolish

def Heap.maxLength : Nat := 16777216

def Library.targetName (lib : Library) (op : Operation) (p : Place) : Except Cause String :=
  match lib.node? p with
  | none => .error (.notAnExpression p.node)
  | some (.var name) => .ok name
  | some _ => .error (.notAVariable op (lib.render p))

/-- What an operation does with the value it waits for. Operands are the numbers of their nodes. -/
inductive Pending where
  -- Collects the operands of a pure operation; the values so far stand latest first.
  | operands (done : List Value) (rest : List Nat)
  | length (target : Nat)
  | assigned (target : Nat)
  -- Takes the number that is to be stored, then the index, then the array.
  | element (array index : Nat)
  | index (array : Nat) (x : Float)
  | array (index : Nat) (x : Float)
  | sequence (rest : List Nat)
  | condition (yes no : Nat)
  | result
  | check (condition body : Nat)
  | test (condition body : Nat) (last : Option Value)
  | pass (condition body : Nat)
  | start (name : String) (stop body : Nat)
  | stop (name : String) (start : Int) (body : Nat)
  | count (name : String) (next stop : Int) (body : Nat)
  | callee
  | line
  deriving DecidableEq

inductive Move where
  | await (place : Place) (pending : Pending)
  | finish (v : Value)
  deriving DecidableEq

abbrev Response := Except Cause (Effect × Move)

namespace Response

def await (graph node : Nat) (pending : Pending) : Response :=
  .ok (.none, .await ⟨graph, node⟩ pending)

def finish (v : Value) : Response :=
  .ok (.none, .finish v)

end Response

structure Frame where
  graph : Nat
  operation : Operation
  pending : Pending
  deriving DecidableEq

namespace Frame

/-- Makes the pass of a counting loop for `next`, if there is one. A loop that makes no pass at all
has its unevaluated body for a value. -/
def count (graph : Nat) (name : String) (next stop : Int) (body : Nat) (last : Option Value) :
    Response :=
  if next < stop then
    .ok (.bind name (.number (Number.ofInteger next)),
      .await ⟨graph, body⟩ (.count name (next + 1) stop body))
  else Response.finish (last.getD (.deferred .loopBody ⟨graph, body⟩))

def enter (lib : Library) (graph : Nat) (op : Operation) (operands : List Nat) : Response :=
  if op.isPure then
    match operands with
    | [] => .error (.arityMismatch op 0)
    | x :: xs => Response.await graph x (.operands [] xs)
  else
    match op, operands with
    | .alloc, [target] => do
      let name ← lib.targetName op ⟨graph, target⟩
      return (.bind name (.number 0.0), .finish (.number 0.0))
    | .allocArray, [target, length] => Response.await graph length (.length target)
    | .assign, [target, value] => Response.await graph value (.assigned target)
    | .store, [array, index, value] => Response.await graph value (.element array index)
    | .prog2, [x, y] => Response.await graph x (.sequence [y])
    | .prog3, [x, y, z] => Response.await graph x (.sequence [y, z])
    | .prog4, [x, y, z, w] => Response.await graph x (.sequence [y, z, w])
    | .branch, [condition, yes, no] => Response.await graph condition (.condition yes no)
    | .whileLoop, [condition, body] => Response.await graph condition (.check condition body)
    | .forLoop, [index, start, stop, body] => do
      let name ← lib.targetName op ⟨graph, index⟩
      Response.await graph start (.start name stop body)
    | .define, [target, body] => do
      let name ← lib.targetName op ⟨graph, target⟩
      let v := .deferred .subroutine ⟨graph, body⟩
      return (.bind name v, .finish v)
    | .call, [target] => Response.await graph target .callee
    | .print, [value] => Response.await graph value .line
    | .nop, [] => Response.finish .nop
    | _, _ => .error (.arityMismatch op operands.length)

def resume (lib : Library) (scope : Scope) (h : Heap) (f : Frame) (v : Value) : Response :=
  match f.pending with
  | .operands done (x :: xs) => Response.await f.graph x (.operands (v :: done) xs)
  | .operands done [] => do
    let result ← f.operation.applyPure h (v :: done).reverse
    Response.finish result
  | .length target => do
    let n ← v.toInteger
    if n < 0 then .error (.negativeLength n)
    else if Heap.maxLength < n.toNat then .error (.arrayTooLarge n.toNat Heap.maxLength)
    else
      let name ← lib.targetName f.operation ⟨f.graph, target⟩
      return (.bindZeros name n.toNat, .finish (.array h.next))
  | .assigned target => do
    let name ← lib.targetName f.operation ⟨f.graph, target⟩
    -- The value is not given back as it is but read from the new binding.
    match (scope.bind name v).find? name with
    | some w => return (.bind name v, .finish w)
    | none => .error (.missingVariable name)
  | .element array index => do
    let x ← v.toNumber
    Response.await f.graph index (.index array x)
  | .index array x => do
    let i ← v.toInteger
    if i < 0 then .error (.negativeIndex i) else Response.await f.graph array (.array i.toNat x)
  | .array index x =>
    match v with
    | .array id =>
      if index < h.length id then .ok (.store id index x, .finish v)
      else .error (.indexOutOfRange index (h.length id))
    | _ => .error (.notAnArray v.kind)
  | .sequence [] => Response.finish v
  | .sequence (x :: xs) => Response.await f.graph x (.sequence xs)
  | .condition yes no =>
    match v with
    | .boolean b => Response.await f.graph (if b then yes else no) .result
    | _ => .error (.conditionNotBoolean v.kind)
  | .result => Response.finish v
  | .check condition body =>
    match v with
    | .boolean _ => Response.await f.graph condition (.test condition body none)
    | _ => .error (.conditionNotBoolean v.kind)
  | .test condition body last =>
    match v with
    | .boolean true => Response.await f.graph body (.pass condition body)
    | .boolean false => Response.finish (last.getD (.deferred .loopBody ⟨f.graph, body⟩))
    | _ => .error (.conditionNotBoolean v.kind)
  | .pass condition body => Response.await f.graph condition (.test condition body (some v))
  | .start name stop body => do
    let i ← v.toInteger
    Response.await f.graph stop (.stop name i body)
  | .stop name start body => do
    let stop ← v.toInteger
    count f.graph name start stop body none
  | .count name next stop body => count f.graph name next stop body (some v)
  | .callee =>
    match v with
    | .deferred .subroutine body => .ok (.none, .await body .result)
    | _ => .error (.notASubroutine v.kind)
  | .line => .ok (.println (v.render lib h), .finish v)

theorem resume_assigned (lib : Library) (scope : Scope) (h : Heap) (graph : Nat) (op : Operation)
    (target : Nat) (v : Value) : resume lib scope h ⟨graph, op, .assigned target⟩ v = (do
      let name ← lib.targetName op ⟨graph, target⟩
      return (.bind name v, .finish v)) := by
  simp only [resume, Scope.find?_bind, if_true]

end Frame

end ReversePolish
