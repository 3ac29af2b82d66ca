/-!
Binary64 numbers, exactly. The magnitude of a float is the number that its low 63 bits spell;
magnitudes are ordered as the numbers they stand for, and `nearest` rounds any ratio to one of them.
-/

namespace ReversePolish.Number

/-- Powers with a negative exponent count as one, so that `b ^ e` is `power b e / power b (-e)`. -/
def power (b : Nat) (e : Int) : Nat :=
  Nat.pow b e.toNat

def fractions : Nat := Nat.pow 2 52

def signBit : Nat := Nat.pow 2 63

def infinity : Nat := 2047 * fractions

def notANumber : Nat := infinity + 1

/-- A finite magnitude stands for `significand bits * 2 ^ exponent bits`. -/
def significand (bits : Nat) : Nat :=
  if bits < fractions then bits else fractions + bits % fractions

def exponent (bits : Nat) : Int :=
  (max 1 (bits / fractions) : Nat) - 1075

def roundDiv (num den : Nat) : Nat :=
  let q := num / den
  let r := num % den
  if 2 * r < den ∨ 2 * r = den ∧ q % 2 = 0 then q else q + 1

def floorLog (num den : Nat) : Int :=
  let l : Int := num.log2 - den.log2
  if num * power 2 (-l) < den * power 2 l then l - 1 else l

/-- The magnitude nearest to `num / den`. A significand that rounds up to the next power of two
carries into the exponent, and past the largest finite number lies infinity. -/
def nearest (num den : Nat) : Nat :=
  if num = 0 then 0
  else
    let unit := max (-1074) (floorLog num den - 52)
    let m := roundDiv (num * power 2 (-unit)) (den * power 2 unit)
    min ((unit + 1074).toNat * fractions + m) infinity

def magnitude (x : Float) : Nat :=
  x.toBits.toNat % signBit

def isNegative (x : Float) : Bool :=
  signBit ≤ x.toBits.toNat

def ofMagnitude (negative : Bool) (bits : Nat) : Float :=
  Float.ofBits (UInt64.ofNat (if negative then signBit + bits else bits))

def ofRatio (negative : Bool) (num den : Nat) : Float :=
  ofMagnitude negative (nearest num den)

def ofDyadic (negative : Bool) (m : Nat) (e : Int) : Float :=
  ofRatio negative (m * power 2 e) (power 2 (-e))

inductive Parts where
  | nan
  | infinite (negative : Bool)
  | finite (negative : Bool) (m : Nat) (e : Int)
  deriving DecidableEq

def parts (x : Float) : Parts :=
  let bits := magnitude x
  if bits < infinity then .finite (isNegative x) (significand bits) (exponent bits)
  else if bits = infinity then .infinite (isNegative x)
  else .nan

end ReversePolish.Number
