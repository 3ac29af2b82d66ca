import ReversePolish.Heap
import ReversePolish.Meter
import ReversePolish.Printer
import ReversePolish.Scope

namespace ReversePolish

structure State where
  scope : Scope := {}
  heap : Heap := {}
  meter : Meter := {}
  printer : Printer := .buffer ""

inductive Effect where
  | none
  | bind (name : String) (v : Value)
  | bindZeros (name : String) (length : Nat)
  | store (id index : Nat) (x : Float)
  | println (line : String)
  deriving DecidableEq

namespace State

def tick (s : State) : State :=
  { s with meter := s.meter.tick }

def apply (s : State) : Effect → State
  | .none => s
  | .bind name v => { s with scope := s.scope.bind name v }
  | .bindZeros name length =>
    let id := s.heap.next
    { s with heap := s.heap.addZeros length, scope := s.scope.bind name (.array id) }
  | .store id index x => { s with heap := s.heap.set id index x }
  | .println line => { s with printer := s.printer.println line }

end State

end ReversePolish
