import ReversePolish.Number.Decimal

namespace ReversePolish.Number

/-- How the digits of a finite number are laid out. The place of the point is counted from before
the first digit. -/
structure Layout where
  -- The places of the point for which no exponent is written.
  positional : Int → Bool
  wholeTail : List Char

namespace Layout

def general : Layout where
  positional point := -4 < point && point ≤ 16
  wholeTail := ['.', '0']

def plain : Layout where
  positional _ := true
  wholeTail := []

def writePositional (l : Layout) (digits : List Char) (point : Int) : List Char :=
  if point ≤ 0 then '0' :: '.' :: List.replicate (-point).toNat '0' ++ digits
  else if digits.length ≤ point.toNat then
    digits ++ List.replicate (point.toNat - digits.length) '0' ++ l.wholeTail
  else digits.take point.toNat ++ '.' :: digits.drop point.toNat

def writeScientific (digits : List Char) (point : Int) : List Char :=
  let rest := digits.drop 1
  digits.take 1 ++ (if rest.isEmpty then [] else '.' :: rest) ++ 'e' :: (toString (point - 1)).toList

def write (l : Layout) (digits : List Char) (point : Int) : List Char :=
  if l.positional point then l.writePositional digits point else writeScientific digits point

def writeDecimal (l : Layout) (d : Decimal) : List Char :=
  let digits := Nat.toDigits 10 d.coefficient
  l.write (digits.reverse.dropWhile (· == '0')).reverse (digits.length + d.exponent)

def writeMagnitude (l : Layout) (bits : Nat) : List Char :=
  l.writeDecimal (if bits = 0 then ⟨0, 0⟩ else .shortest bits)

def writeFloat (l : Layout) (x : Float) : String :=
  let sign := if isNegative x then ['-'] else []
  match parts x with
  | .nan => "NaN"
  | .infinite _ => String.ofList (sign ++ ['i', 'n', 'f'])
  | .finite _ _ _ => String.ofList (sign ++ l.writeMagnitude (magnitude x))

end Layout

def format (x : Float) : String :=
  Layout.general.writeFloat x

end ReversePolish.Number
