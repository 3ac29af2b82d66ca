import ReversePolish.Graph

namespace ReversePolish

inductive Origin where
  | subroutine
  | loopBody
  deriving DecidableEq

inductive Value where
  | number (x : Float)
  | boolean (b : Bool)
  | array (id : Nat)
  | deferred (origin : Origin) (body : Place)
  | nop
  deriving DecidableEq

inductive Kind where
  | number
  | boolean
  | array
  | subroutine
  | unevaluated
  | nop
  deriving DecidableEq

namespace Kind

def name : Kind → String
  | .number => "number"
  | .boolean => "boolean"
  | .array => "array"
  | .subroutine => "subroutine"
  | .unevaluated => "unevaluated expression"
  | .nop => "nop"

end Kind

namespace Value

def kind : Value → Kind
  | .number _ => .number
  | .boolean _ => .boolean
  | .array _ => .array
  | .deferred .subroutine _ => .subroutine
  | .deferred .loopBody _ => .unevaluated
  | .nop => .nop

def sameSort : Value → Value → Bool
  | .number _, .number _ => true
  | .boolean _, .boolean _ => true
  | .array _, .array _ => true
  | .deferred _ _, .deferred _ _ => true
  | .nop, .nop => true
  | _, _ => false

end Value

end ReversePolish
