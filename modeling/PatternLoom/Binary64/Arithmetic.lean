import PatternLoom.Binary64.Rounding
import PatternLoom.Failure

/-! Sums, products, quotients and integer parts. A sum, a product or a quotient is the
exact one rounded once; integer parts are exact. -/

namespace PatternLoom
namespace Binary64

def neg : Binary64 → Binary64
  | nan => nan
  | infinity negative => infinity !negative
  | finite negative u h => finite (!negative) u h

/-- The number nearest to an integer of units; zero takes the sign given for it. -/
def ofSignedUnits (zeroNegative : Bool) (n : Int) : Binary64 :=
  if n = 0 then zero zeroNegative else ofUnits (n < 0) n.natAbs 1

def add : Binary64 → Binary64 → Binary64
  | nan, _ => nan
  | _, nan => nan
  | infinity a, infinity b => if a = b then infinity a else nan
  | infinity a, finite _ _ _ => infinity a
  | finite _ _ _, infinity b => infinity b
  | x@(finite a _ _), y@(finite b _ _) => ofSignedUnits (a && b) (x.units + y.units)

def sub (x y : Binary64) : Binary64 := x.add y.neg

def mul : Binary64 → Binary64 → Binary64
  | nan, _ => nan
  | _, nan => nan
  | infinity a, infinity b => infinity (a != b)
  | infinity a, finite b v _ => if v = 0 then nan else infinity (a != b)
  | finite a u _, infinity b => if u = 0 then nan else infinity (a != b)
  | finite a u _, finite b v _ => ofUnits (a != b) (u * v) unitsPerOne

/-- A nonzero number over zero is infinite. -/
def div : Binary64 → Binary64 → Binary64
  | nan, _ => nan
  | _, nan => nan
  | infinity _, infinity _ => nan
  | infinity a, finite b _ _ => infinity (a != b)
  | finite a _ _, infinity b => zero (a != b)
  | finite a u _, finite b v _ =>
    if v = 0 then if u = 0 then nan else infinity (a != b)
    else ofUnits (a != b) (u * unitsPerOne) v

instance : Neg Binary64 := ⟨neg⟩
instance : Add Binary64 := ⟨add⟩
instance : Sub Binary64 := ⟨sub⟩
instance : Mul Binary64 := ⟨mul⟩
instance : Div Binary64 := ⟨div⟩

def quotient (x y : Binary64) : Result Binary64 :=
  if y.isZero then .error .divisionByZero else .ok (x / y)

/-- A number that came from integers, unless it is infinite. -/
def inRange : Binary64 → Result Binary64
  | infinity _ => .error .beyondRange
  | x => .ok x

/-- The number nearest to an integer, if it is finite. -/
def ofInt (n : Int) : Result Binary64 := (ofFraction (n < 0) n.natAbs 1).inRange

/-- The number nearest to a quotient of integers, if it is finite. -/
def ofQuotient (num den : Int) : Result Binary64 :=
  if den = 0 then .error .divisionByZero
  else (ofFraction ((num < 0) != (den < 0)) num.natAbs den.natAbs).inRange

def floor : Binary64 → Result Int
  | nan => .error .notANumber
  | infinity _ => .error .unbounded
  | x@(finite _ _ _) => .ok (x.units / unitsPerOne)

def ceil : Binary64 → Result Int
  | nan => .error .notANumber
  | infinity _ => .error .unbounded
  | x@(finite _ _ _) => .ok (-(-x.units / unitsPerOne))

def isWhole : Binary64 → Bool
  | finite _ u _ => u % unitsPerOne = 0
  | _ => false

/-- The nearest integer of the sum with one half, a half going up. -/
def roundHalfUp (x : Binary64) : Result Int := (x + 0.5).floor

/-- The nearest multiple of `step`. Numbers that are not finite, and any number where the
step is not above zero, stay as they are. -/
def onGrid (x step : Binary64) : Result Binary64 :=
  if !x.isFinite || step ≤ 0 then .ok x
  else do return (← ofInt (← (x / step).roundHalfUp)) * step

/-- The number moved into `[low, high]`. -/
def clamp (low high x : Binary64) : Binary64 := low.larger (high.smaller x)

/-- Left-to-right sum from zero. -/
def sum (xs : List Binary64) : Binary64 := xs.foldl add 0

end Binary64
end PatternLoom
