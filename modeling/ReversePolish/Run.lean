import ReversePolish.Assembler
import ReversePolish.Machine.Evaluator

namespace ReversePolish

inductive RunError where
  | read (e : ReadError)
  | fault (f : Fault)
  deriving DecidableEq

structure Report where
  result : Except RunError Value
  library : Library
  state : State

def evaluate (fuel : Nat) (lib : Library) (place : Place) (s : State) : Option Outcome :=
  Machine.run lib fuel { control := .enter place, state := s }

def runWith (fuel : Nat) (v : Vocabulary) (lib : Library) (text : String) (s : State) :
    Option Report :=
  match Program.read v text with
  | .error e => some ⟨.error (.read e), lib, s⟩
  | .ok p =>
    let place : Place := ⟨lib.next, p.root⟩
    let lib := lib.add p.graph
    (evaluate fuel lib place s).map fun o =>
      { result := o.result.mapError .fault, library := lib, state := o.state }

def run (fuel : Nat) (lib : Library) (text : String) (scope : Scope) (heap : Heap) : Option Report :=
  runWith fuel .standard lib text { scope, heap, printer := .terminal "" }

end ReversePolish
