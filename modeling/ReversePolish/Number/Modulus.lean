import ReversePolish.Number.Binary64

namespace ReversePolish.Number

/-- What is left of `a` when as many whole `b` as fit into it are taken away. It is exact and has
the sign of `a`. -/
def truncMod (a b : Float) : Float :=
  match parts a, parts b with
  | .finite negative m p, .finite _ n q =>
    if n = 0 then 0.0 / 0.0
    else
      let e := min p q
      ofDyadic negative (m * power 2 (p - e) % (n * power 2 (q - e))) e
  | .finite _ _ _, .infinite _ => a
  | _, _ => 0.0 / 0.0

def floorMod (a b : Float) : Float :=
  let r := truncMod a b
  if r != 0.0 && (decide (r < 0.0) != decide (b < 0.0)) then r + b else r

end ReversePolish.Number
