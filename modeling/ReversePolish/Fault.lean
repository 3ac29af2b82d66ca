import ReversePolish.Tree
import ReversePolish.Value

namespace ReversePolish

inductive Category where
  | missingVariable
  | notAnExpression
  | notAVariable
  | notAnArray
  | subroutine
  | arithmetic
  | index
  | type
  | budget
  deriving DecidableEq

inductive Cause where
  | missingVariable (name : String)
  | notAnExpression (id : Nat)
  | arityMismatch (op : Operation) (found : Nat)
  | notAVariable (op : Operation) (found : String)
  | notAnArray (got : Kind)
  | notASubroutine (got : Kind)
  | divisionByZero
  | moduloByZero
  | reciprocalOfZero
  | zeroToNegativePower
  | indexOutOfRange (index : Int) (length : Nat)
  | negativeIndex (index : Int)
  | negativeLength (length : Int)
  | arrayTooLarge (length limit : Nat)
  | conditionNotBoolean (got : Kind)
  | notAnInteger (value : Float)
  | integerOutOfRange (value : Float)
  | typeMismatch (expected got : Kind)
  | budgetExceeded (budget : Nat)
  deriving DecidableEq

namespace Cause

def category : Cause → Category
  | .missingVariable _ => .missingVariable
  | .notAnExpression _ | .arityMismatch _ _ => .notAnExpression
  | .notAVariable _ _ => .notAVariable
  | .notAnArray _ => .notAnArray
  | .notASubroutine _ => .subroutine
  | .divisionByZero | .moduloByZero | .reciprocalOfZero | .zeroToNegativePower => .arithmetic
  | .indexOutOfRange _ _ | .negativeIndex _ | .negativeLength _ | .arrayTooLarge _ _ => .index
  | .conditionNotBoolean _ | .notAnInteger _ | .integerOutOfRange _ | .typeMismatch _ _ => .type
  | .budgetExceeded _ => .budget

def message : Cause → String
  | .missingVariable name => "cannot find variable `" ++ name ++ "` in the environment"
  | .notAnExpression id => "operand " ++ nodeText id ++ " is not an expression"
  | .arityMismatch op found =>
    "`" ++ op.symbol ++ "` expects " ++ toString op.arity ++ " operands, found " ++ toString found
  | .notAVariable op found => "`" ++ op.symbol ++ "` needs a variable, found `" ++ found ++ "`"
  | .notAnArray got => got.name ++ " is not an array"
  | .notASubroutine got => "can only call expressions defined by defsub, found " ++ got.name
  | .divisionByZero => "division by zero"
  | .moduloByZero => "modulus by zero"
  | .reciprocalOfZero => "reciprocal of zero"
  | .zeroToNegativePower => "zero cannot be raised to a negative power"
  | .indexOutOfRange index length =>
    "index " ++ toString index ++ " is out of range for an array of length " ++ toString length
  | .negativeIndex index => "index " ++ toString index ++ " must not be negative"
  | .negativeLength length => "array length " ++ toString length ++ " must not be negative"
  | .arrayTooLarge length limit =>
    "array length " ++ toString length ++ " exceeds the maximum of " ++ toString limit
  | .conditionNotBoolean got => "condition must be a boolean, got " ++ got.name
  | .notAnInteger value => Number.Layout.plain.writeFloat value ++ " is not an integer"
  | .integerOutOfRange value =>
    Number.Layout.plain.writeFloat value ++ " is outside the integer range"
  | .typeMismatch expected got => "type mismatch: expected " ++ expected.name ++ ", got " ++ got.name
  | .budgetExceeded budget => "step budget of " ++ toString budget ++ " exceeded"

end Cause

structure Fault where
  cause : Cause
  message : String
  operation : Option Operation
  deriving DecidableEq

namespace Fault

def of (cause : Cause) (operation : Option Operation) : Fault :=
  { cause, message := cause.message, operation }

def within (f : Fault) (op : Operation) : Fault :=
  { f with operation := f.operation <|> some op }

def text (f : Fault) : String :=
  match f.operation with
  | none => f.message
  | some op => f.message ++ " (in `" ++ op.symbol ++ "`)"

end Fault

end ReversePolish
