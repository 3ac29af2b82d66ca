import ReversePolish.Number.Binary64

namespace ReversePolish.Number

def signed (negative : Bool) (n : Nat) : Int :=
  if negative then -n else n

def fract (x : Float) : Float :=
  match parts x with
  | .finite negative m e => ofDyadic negative (m % power 2 (-e)) e
  | _ => 0.0 / 0.0

/-- Drops the fractional part. Beyond the integers of 64 bits it stops at the last of them, and what
is no number becomes zero. -/
def truncate (x : Float) : Int :=
  match parts x with
  | .nan => 0
  | .infinite negative => if negative then -9223372036854775808 else 9223372036854775807
  | .finite negative m e =>
    max (-9223372036854775808) (min 9223372036854775807 (signed negative (m * power 2 e / power 2 (-e))))

def ofInteger (i : Int) : Float :=
  ofRatio (i < 0) i.natAbs 1

end ReversePolish.Number
