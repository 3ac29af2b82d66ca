import ReversePolish.Operation

namespace ReversePolish

inductive Node where
  | var (name : String)
  | num (value : Float)
  | apply (op : Operation) (operands : List Nat)
  deriving DecidableEq

abbrev Graph := Array Node

structure Program where
  graph : Graph
  root : Nat
  deriving DecidableEq

structure Place where
  graph : Nat
  node : Nat
  deriving DecidableEq

/-- All the graphs that values may refer to. A graph keeps its number for good. -/
structure Library where
  graphs : Array Graph := #[]

namespace Library

def graph (lib : Library) (g : Nat) : Graph :=
  lib.graphs[g]?.getD #[]

def node? (lib : Library) (p : Place) : Option Node :=
  (lib.graph p.graph)[p.node]?

def next (lib : Library) : Nat :=
  lib.graphs.size

def add (lib : Library) (graph : Graph) : Library :=
  ⟨lib.graphs.push graph⟩

theorem graph_add (lib : Library) (new : Graph) (g : Nat) :
    (lib.add new).graph g = if g = lib.next then new else lib.graph g := by
  by_cases e : g = lib.graphs.size <;> simp [add, graph, next, Array.getElem?_push, e]

end Library

end ReversePolish
