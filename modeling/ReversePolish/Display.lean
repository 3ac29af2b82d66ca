import ReversePolish.Heap
import ReversePolish.Tree

namespace ReversePolish

def Heap.render (h : Heap) (id : Nat) : String :=
  "[" ++ ", ".intercalate ((h.buffer id).toList.map Number.format) ++ "]"

def Library.render (lib : Library) (p : Place) : String :=
  (lib.graph p.graph).render p.node

def Value.render (lib : Library) (h : Heap) : Value → String
  | .number x => Number.format x
  | .boolean true => "true"
  | .boolean false => "false"
  | .array id => h.render id
  | .deferred .subroutine body => "<subroutine " ++ lib.render body ++ ">"
  | .deferred .loopBody body => "<unevaluated " ++ lib.render body ++ ">"
  | .nop => "nop"

end ReversePolish
