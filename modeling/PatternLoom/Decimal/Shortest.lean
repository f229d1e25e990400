import PatternLoom.Decimal.Fixed

/-! The fewest significant digits that read back as the same number. -/

namespace PatternLoom
namespace Decimal

/-- A positive decimal number: `significand` times ten to the `exponent`. -/
structure Scientific where
  significand : Nat
  exponent : Int
  deriving DecidableEq

def Scientific.magnitude (d : Scientific) : Nat :=
  if d.exponent < 0 then
    nearestMagnitude (d.significand * unitsPerOne) (Nat.pow 10 (-d.exponent).toNat)
  else nearestMagnitude (d.significand * Nat.pow 10 d.exponent.toNat * unitsPerOne) 1

/-- How many of the first places after the point are zero in a magnitude below one. -/
def leadingZeros (u : Nat) : Nat → Nat
  | 0 => 0
  | fuel + 1 => if unitsPerOne ≤ u * 10 then 0 else leadingZeros (u * 10) fuel + 1

/-- The power of ten of the first significant digit. -/
def leadingExponent (u : Nat) : Int :=
  if unitsPerOne ≤ u then ((digits (u / unitsPerOne)).length : Int) - 1
  else -(leadingZeros u 330 : Int) - 1

/-- The neighbours of a magnitude among the multiples of a power of ten, the nearer one
first and the even one of two equally near. -/
def gridNeighbours (u : Nat) (exponent : Int) : List Scientific :=
  let num := if exponent < 0 then u * Nat.pow 10 (-exponent).toNat else u
  let den := if exponent < 0 then unitsPerOne else unitsPerOne * Nat.pow 10 exponent.toNat
  let below : Scientific := ⟨num / den, exponent⟩
  let above : Scientific := ⟨num / den + 1, exponent⟩
  if nearestEven num den = num / den then [below, above] else [above, below]

/-- The first neighbour that reads back, trying grids from one digit on. -/
def shortestFrom (u : Nat) (leading : Int) : Nat → Nat → Scientific
  | _, 0 => ⟨u, 0⟩
  | count, fuel + 1 =>
    match (gridNeighbours u (leading + 1 - count)).find? (·.magnitude = u) with
    | some d => d
    | none => shortestFrom u leading (count + 1) fuel

/-- The shortest decimal number that reads back as the magnitude; seventeen digits always
suffice. -/
def shortest (u : Nat) : Scientific := shortestFrom u (leadingExponent u) 1 17

/-- How a `Scientific` is written: the exponents written with the point in place, and the
least width of a written exponent. -/
structure Layout where
  leastPositional : Int
  mostPositional : Int
  exponentWidth : Nat

/-- Positional from 10^-4 up to 10^16, and exponents of at least two digits. -/
def standardLayout : Layout := ⟨-4, 15, 2⟩

/-- Digits with the point after the one that stands for `10 ^ leading`; a whole number
ends in `.0`. -/
def positional (ds : List Char) (leading : Int) : String :=
  if leading < 0 then
    "0." ++ String.ofList (List.replicate (-leading - 1).toNat '0' ++ ds)
  else
    let whole := (leading + 1).toNat
    if ds.length ≤ whole then
      String.ofList (ds ++ List.replicate (whole - ds.length) '0') ++ ".0"
    else String.ofList (ds.take whole) ++ "." ++ String.ofList (ds.drop whole)

def withExponent (layout : Layout) (ds : List Char) (leading : Int) : String :=
  String.ofList (ds.take 1) ++
    (if ds.length ≤ 1 then "" else "." ++ String.ofList (ds.drop 1)) ++
    (if leading < 0 then "e-" else "e+") ++
    String.ofList (paddedDigits layout.exponentWidth leading.natAbs)

def Scientific.text (layout : Layout) (d : Scientific) : String :=
  let ds := digits d.significand
  let leading := d.exponent + ds.length - 1
  let ds := (ds.reverse.dropWhile (· = '0')).reverse
  if layout.leastPositional ≤ leading ∧ leading ≤ layout.mostPositional then
    positional ds leading
  else withExponent layout ds leading

def shortestText : Binary64 → String
  | .nan => "nan"
  | .infinity negative => signText negative ++ "inf"
  | .finite negative u _ =>
    signText negative ++ if u = 0 then "0.0" else (shortest u).text standardLayout

end Decimal
end PatternLoom
