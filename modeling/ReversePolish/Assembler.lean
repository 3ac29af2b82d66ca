import ReversePolish.Graph
import ReversePolish.Vocabulary
import ReversePolish.Number.Literal

namespace ReversePolish

inductive ReadError where
  | underflow (word : String) (position expected found : Nat)
  | empty
  | leftover (count : Nat)
  deriving DecidableEq

namespace ReadError

def message : ReadError → String
  | .underflow word position expected found =>
    "stack underflow: `" ++ word ++ "` at token " ++ toString position ++ " takes " ++
      toString expected ++ " operands, stack holds " ++ toString found
  | .empty => "stack underflow: program is empty"
  | .leftover count =>
    "malformed program: " ++ toString count ++ " expressions left on the stack, expected 1"

def isUnderflow : ReadError → Bool
  | .underflow _ _ _ _ | .empty => true
  | .leftover _ => false

end ReadError

structure Assembler where
  graph : Graph := #[]
  -- The nodes without a parent, the latest first.
  stack : List Nat := []
  position : Nat := 0
  deriving DecidableEq

namespace Assembler

def add (a : Assembler) (node : Node) (operands : Nat) : Assembler :=
  let id := a.graph.size
  let stack := id :: a.stack.drop operands
  let position := a.position + 1
  { graph := a.graph.push node, stack, position }

def skip (a : Assembler) : Assembler :=
  { a with position := a.position + 1 }

def push (v : Vocabulary) (word : String) (a : Assembler) : Except ReadError Assembler :=
  match v.find? word with
  | some op =>
    let operands := a.stack.take op.arity
    if operands.length < op.arity then
      .error (.underflow word a.position op.arity operands.length)
    else .ok (a.add (.apply op operands) op.arity)
  | none =>
    match Number.read? word with
    | some value => .ok (a.add (.num value) 0)
    | none => .ok (a.add (.var word) 0)

def feed (v : Vocabulary) (a : Assembler) (word : String) : Assembler × Option ReadError :=
  match a.push v word with
  | .ok a => (a, none)
  | .error e => (a.skip, some e)

def finish (a : Assembler) : Except ReadError Program :=
  match a.stack with
  | [] => .error .empty
  | [root] => .ok ⟨a.graph, root⟩
  | stack => .error (.leftover stack.length)

end Assembler

def isBlank (c : Char) : Bool :=
  c == ' ' || c == '\t' || c == '\n' || c == '\x0c' || c == '\r'

def words (text : String) : List String :=
  let runs := text.toList.foldr
    (fun c runs =>
      if isBlank c then [] :: runs
      else
        match runs with
        | [] => [[c]]
        | run :: runs => (c :: run) :: runs)
    [[]]
  (runs.filter (!·.isEmpty)).map String.ofList

namespace Program

def read (v : Vocabulary) (text : String) : Except ReadError Program := do
  let a ← (words text).foldlM (fun a word => a.push v word) ({} : Assembler)
  a.finish

end Program

end ReversePolish
