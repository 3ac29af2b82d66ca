import ReversePolish.Value

namespace ReversePolish

structure Heap where
  buffers : Array (Array Float) := #[]

namespace Heap

def next (h : Heap) : Nat :=
  h.buffers.size

def add (h : Heap) (buffer : Array Float) : Heap :=
  ⟨h.buffers.push buffer⟩

@[simp] theorem next_add (h : Heap) (buffer : Array Float) : (h.add buffer).next = h.next + 1 := by
  simp [add, next]

def addZeros (h : Heap) (length : Nat) : Heap :=
  h.add (Array.replicate length 0.0)

def buffer (h : Heap) (id : Nat) : Array Float :=
  h.buffers[id]?.getD #[]

def length (h : Heap) (id : Nat) : Nat :=
  (h.buffer id).size

def get? (h : Heap) (id index : Nat) : Option Float :=
  (h.buffer id)[index]?

def set (h : Heap) (id index : Nat) (x : Float) : Heap :=
  ⟨h.buffers.modify id (·.setIfInBounds index x)⟩

theorem buffer_add (h : Heap) (new : Array Float) (id : Nat) :
    (h.add new).buffer id = if id = h.next then new else h.buffer id := by
  by_cases e : id = h.buffers.size <;> simp [add, buffer, next, Array.getElem?_push, e]

theorem buffer_set (h : Heap) (id index : Nat) (x : Float) (other : Nat) :
    (h.set id index x).buffer other =
      if id = other then (h.buffer other).setIfInBounds index x else h.buffer other := by
  simp only [set, buffer, Array.getElem?_modify]
  split
  · cases h.buffers[other]? <;> simp
  · rfl

@[simp] theorem length_set (h : Heap) (id index : Nat) (x : Float) (other : Nat) :
    (h.set id index x).length other = h.length other := by
  simp only [length, buffer_set]
  split <;> simp

def arraysEqual (h : Heap) (a b : Nat) : Bool :=
  a == b || (h.buffer a).isEqv (h.buffer b) (· == ·)

end Heap

def Value.equal (h : Heap) : Value → Value → Bool
  | .number x, .number y => x == y
  | .boolean a, .boolean b => a == b
  | .array a, .array b => h.arraysEqual a b
  | .deferred o p, .deferred o' p' => o == o' && p == p'
  | .nop, .nop => true
  | _, _ => false

end ReversePolish
