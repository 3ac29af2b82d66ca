namespace ReversePolish

structure Meter where
  budget : Option Nat := none
  steps : Nat := 0
  deriving DecidableEq

namespace Meter

def ceiling : Nat := UInt64.size - 1

def tick (m : Meter) : Meter :=
  { m with steps := min (m.steps + 1) ceiling }

def overrun? (m : Meter) : Option Nat :=
  m.budget.filter (· < m.steps)

end Meter

end ReversePolish
