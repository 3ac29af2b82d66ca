import ReversePolish.Graph
import ReversePolish.Number.Layout

namespace ReversePolish

inductive Tree where
  | var (name : String)
  | num (value : Float)
  | apply (op : Operation) (operands : List Tree)
  | missing (id : Nat)

def nodeText (id : Nat) : String :=
  "ExprId(" ++ toString id ++ ")"

namespace Tree

mutual

def renderOnto (text : String) : Tree → String
  | .var name => text ++ name
  | .num value => text ++ Number.format value
  | .apply op operands => renderOperandsOnto (text ++ "(" ++ op.symbol) operands ++ ")"
  | .missing id => text ++ "<invalid " ++ nodeText id ++ ">"

def renderOperandsOnto (text : String) : List Tree → String
  | [] => text
  | t :: ts => renderOperandsOnto (renderOnto (text ++ " ") t) ts

end

def render (t : Tree) : String :=
  t.renderOnto ""

end Tree

namespace Graph

def unfoldTo (g : Graph) : Nat → Nat → Tree
  | 0, id => .missing id
  | depth + 1, id =>
    match g[id]? with
    | none => .missing id
    | some (.var name) => .var name
    | some (.num value) => .num value
    | some (.apply op operands) => .apply op (operands.map (g.unfoldTo depth))

/-- No path that comes to an end is longer than the graph. A tree that has no end is cut off here,
and a step that writes out the text of such a tree does not end. -/
def unfold (g : Graph) (id : Nat) : Tree :=
  g.unfoldTo (g.size + 1) id

def render (g : Graph) (id : Nat) : String :=
  (g.unfold id).render

end Graph

def Program.render (p : Program) : String :=
  p.graph.render p.root

end ReversePolish
