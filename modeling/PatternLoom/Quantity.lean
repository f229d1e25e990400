import PatternLoom.Binary64.Arithmetic
import PatternLoom.Decimal.Shortest

/-! Quantities that are exact as long as they are whole. -/

namespace PatternLoom

inductive Quantity where
  | whole (n : Int)
  | real (x : Binary64)
  deriving DecidableEq

namespace Quantity

def toReal : Quantity → Result Binary64
  | whole n => Binary64.ofInt n
  | real x => .ok x

def mul : Quantity → Quantity → Result Quantity
  | whole a, whole b => .ok (whole (a * b))
  | x, y => do return real ((← x.toReal) * (← y.toReal))

/-- One, unless the quantity is above it. -/
def atLeastOne : Quantity → Quantity
  | whole n => whole (max 1 n)
  | real x => if 1 < x then real x else whole 1

def isBelow (n : Nat) : Quantity → Bool
  | whole limit => limit < n
  | real x => x < .ofFraction false n 1

def divides (x : Binary64) (q : Quantity) : Result Binary64 := do x.quotient (← q.toReal)

def reciprocal : Quantity → Result Binary64
  | whole n => Binary64.ofQuotient 1 n
  | real x => Binary64.quotient 1 x

def text : Quantity → String
  | whole n => toString n
  | real x => Decimal.shortestText x

end Quantity
end PatternLoom
