import ReversePolish.Number.Binary64

namespace ReversePolish.Number

structure Decimal where
  coefficient : Nat
  exponent : Int
  deriving DecidableEq

namespace Decimal

def nearest (d : Decimal) : Nat :=
  Number.nearest (d.coefficient * power 10 d.exponent) (power 10 (-d.exponent))

def ofDyadic (m : Nat) (e : Int) : Decimal :=
  ⟨m * power 2 e * power 5 (-e), min e 0⟩

def floorLog (num den : Nat) : Int :=
  let l : Int := num.log2 - den.log2
  let k := (l - 1) * 30103 / 100000 + 1
  if den * power 10 k ≤ num * power 10 (-k) then k else k - 1

def onGrid? (num den bits : Nat) (e : Int) : Option Decimal :=
  let n := num * power 10 (-e)
  let d := den * power 10 e
  let lower : Decimal := ⟨n / d, e⟩
  let upper : Decimal := ⟨n / d + 1, e⟩
  match lower.nearest == bits, upper.nearest == bits with
  | true, true => some (if 2 * (n % d) < d then lower else upper)
  | true, false => some lower
  | false, true => some upper
  | false, false => none

/-- Of the decimals with the fewest digits that read back as the magnitude, the nearest, or the
larger of two that are equally near. Seventeen digits are always enough. -/
def shortest (bits : Nat) : Decimal :=
  let m := significand bits
  let e := Number.exponent bits
  let num := m * power 2 e
  let den := power 2 (-e)
  let top := floorLog num den
  ((List.range 17).findSome? fun n : Nat => onGrid? num den bits (top - n)).getD (ofDyadic m e)

end Decimal

end ReversePolish.Number
