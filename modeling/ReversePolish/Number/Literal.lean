import ReversePolish.Number.Decimal

/-!
Number words: an optional sign, then digits with an optional point and an optional exponent, or
`inf`, `infinity` or `nan` in any case of letters. The value is correctly rounded.
-/

namespace ReversePolish.Number

namespace Literal

def sign : List Char → Bool × List Char
  | '-' :: cs => (true, cs)
  | '+' :: cs => (false, cs)
  | cs => (false, cs)

def fraction : List Char → List Char × List Char
  | '.' :: cs => (cs.takeWhile Char.isDigit, cs.dropWhile Char.isDigit)
  | cs => ([], cs)

/-- Further digits are ignored once the exponent has reached 65536, where every number but zero has
long left the range of finite floats. -/
def exponentValue (digits : List Char) : Nat :=
  digits.foldl (fun e c => if e < 65536 then 10 * e + (c.toNat - '0'.toNat) else e) 0

def exponent? : List Char → Option Int
  | [] => some 0
  | c :: cs =>
    if c = 'e' ∨ c = 'E' then
      let (negative, digits) := sign cs
      if digits.isEmpty ∨ ¬ digits.all Char.isDigit then none
      else some (if negative then -(exponentValue digits : Int) else exponentValue digits)
    else none

def decimal? (cs : List Char) : Option Decimal :=
  let whole := cs.takeWhile Char.isDigit
  let (part, rest) := fraction (cs.dropWhile Char.isDigit)
  if whole.isEmpty ∧ part.isEmpty then none
  else (exponent? rest).map fun e => ⟨Nat.ofDigitChars 10 (whole ++ part) 0, e - part.length⟩

def magnitude? (cs : List Char) : Option Nat :=
  match decimal? cs with
  | some d => some d.nearest
  | none =>
    let word := cs.map Char.toLower
    if word = ['i', 'n', 'f'] ∨ word = ['i', 'n', 'f', 'i', 'n', 'i', 't', 'y'] then some infinity
    else if word = ['n', 'a', 'n'] then some notANumber
    else none

end Literal

def read? (word : String) : Option Float :=
  let (negative, cs) := Literal.sign word.toList
  (Literal.magnitude? cs).map (ofMagnitude negative)

end ReversePolish.Number
