import ReversePolish.Fault
import ReversePolish.Heap
import ReversePolish.Number.Integer
import ReversePolish.Number.Modulus

namespace ReversePolish

namespace Value

def toNumber : Value → Except Cause Float
  | .number x => .ok x
  | v => .error (.typeMismatch .number v.kind)

def toInteger (v : Value) : Except Cause Int := do
  let x ← v.toNumber
  if !x.isFinite || Number.fract x != 0.0 then .error (.notAnInteger x)
  else if -9223372036854775808.0 ≤ x ∧ x < 9223372036854775808.0 then .ok (Number.truncate x)
  else .error (.integerOutOfRange x)

def agrees (h : Heap) (v w : Value) : Bool :=
  v.sameSort w && v.equal h w

end Value

namespace Operation

def applyUnary (op : Operation) (v : Value) : Except Cause Value := do
  let x ← v.toNumber
  match op with
  | .reciprocal => if x == 0.0 then .error .reciprocalOfZero else .ok (.number (1.0 / x))
  | .abs => .ok (.number x.abs)
  | _ => .error (.arityMismatch op 1)

def applyNumbers (op : Operation) (x y : Float) : Except Cause Value :=
  match op with
  | .add => .ok (.number (x + y))
  | .mul => .ok (.number (x * y))
  | .pow =>
    if x == 0.0 && y < 0.0 then .error .zeroToNegativePower else .ok (.number (x.pow y))
  | .sub => .ok (.number (x - y))
  | .div => if y == 0.0 then .error .divisionByZero else .ok (.number (x / y))
  | .mod => if y == 0.0 then .error .moduloByZero else .ok (.number (Number.floorMod x y))
  | .gt => .ok (.boolean (y < x))
  | .ge => .ok (.boolean (y ≤ x))
  | .lt => .ok (.boolean (x < y))
  | .le => .ok (.boolean (x ≤ y))
  | _ => .error (.arityMismatch op 2)

def applyBinary (h : Heap) (op : Operation) (v w : Value) : Except Cause Value :=
  match op with
  | .eq => .ok (.boolean (v.agrees h w))
  | .ne => .ok (.boolean (!v.agrees h w))
  | op => do
    let x ← v.toNumber
    let y ← w.toNumber
    op.applyNumbers x y

def applyPure (h : Heap) (op : Operation) : List Value → Except Cause Value
  | [v] => op.applyUnary v
  | [v, w] => op.applyBinary h v w
  | vs => .error (.arityMismatch op vs.length)

end Operation

end ReversePolish
