import PatternLoom.Decimal.Shortest
import PatternLoom.Text.Blank
import PatternLoom.Text.Digit

/-! Numerals as people type them: surrounding blanks, a sign, digits of any script with
single underscores between them, a point, an exponent, or the name of a number that is
not finite. -/

namespace PatternLoom
namespace Decimal

def digitsValue (ds : List Char) : Nat :=
  ds.foldl (fun n c => n * 10 + (c.toNat - '0'.toNat)) 0

/-- The number nearest to `digits` times ten to the `exponent`. Exponents far out of range
are settled without writing the number out. -/
def nearest (negative : Bool) (n : Nat) (exponent : Int) : Binary64 :=
  let leading := exponent + (digits n).length
  if n = 0 ∨ leading < -400 then .zero negative
  else if 400 < leading then .infinity negative
  else if exponent < 0 then .ofFraction negative n (Nat.pow 10 (-exponent).toNat)
  else .ofFraction negative (n * Nat.pow 10 exponent.toNat) 1

/-- The value of ASCII digits around a point, or of a whole number without one. -/
def pointed (whole fraction : List Char) : Binary64 :=
  nearest false (digitsValue (whole ++ fraction)) (-(fraction.length : Int))

/-- Blanks and digits in their ASCII form. The separators below the space count as blank
elsewhere, but not around a numeral. -/
def asciiForm (c : Char) : Char :=
  if c.toNat < 127 then c
  else if isBlank c then ' '
  else match decimalDigit? c with
    | some d => Char.ofNat ('0'.toNat + d)
    | none => '?'

def isNumeralBlank (c : Char) : Bool := c == ' ' || (0x09 ≤ c.toNat && c.toNat ≤ 0x0d)

/-- Drops each underscore that stands between two digits; fails at any other. -/
def dropUnderscores (afterDigit : Bool) : List Char → Option (List Char)
  | [] => some []
  | '_' :: c :: rest =>
    if afterDigit && isAsciiDigit c then (dropUnderscores true rest).map (c :: ·) else none
  | c :: rest => if c = '_' then none else (dropUnderscores (isAsciiDigit c) rest).map (c :: ·)

/-- The plain spelling of a numeral, without blanks, other scripts and underscores. -/
def plainSpelling (s : String) : Option (List Char) :=
  let cs := (s.toList.map asciiForm).dropWhile isNumeralBlank
  dropUnderscores false (cs.reverse.dropWhile isNumeralBlank).reverse

def splitSign : List Char → Bool × List Char
  | '-' :: rest => (true, rest)
  | '+' :: rest => (false, rest)
  | cs => (false, cs)

/-- The most digits that a whole number is read or written with. -/
def digitLimit : Nat := 4300

def readInt (s : String) : Option Int := do
  let (negative, ds) := splitSign (← plainSpelling s)
  if ds.isEmpty || !ds.all isAsciiDigit || digitLimit < ds.length then none
  else some (if negative then -(digitsValue ds : Int) else digitsValue ds)

/-- The exponent after the mark, zero without one. -/
def readExponent : List Char → Option Int
  | [] => some 0
  | c :: rest =>
    if c.toLower ≠ 'e' then none
    else
      let (negative, ds) := splitSign rest
      if ds.isEmpty || !ds.all isAsciiDigit then none
      else some (if negative then -(digitsValue ds : Int) else digitsValue ds)

def readNumber (s : String) : Option Binary64 := do
  let (negative, cs) := splitSign (← plainSpelling s)
  let name := String.ofList (cs.map Char.toLower)
  if name = "nan" then some .nan
  else if name = "inf" || name = "infinity" then some (.infinity negative)
  else
    let whole := cs.takeWhile isAsciiDigit
    let afterWhole := cs.dropWhile isAsciiDigit
    let (fraction, rest) := match afterWhole with
      | '.' :: more => (more.takeWhile isAsciiDigit, more.dropWhile isAsciiDigit)
      | more => ([], more)
    if whole.isEmpty && fraction.isEmpty then none
    else
      let exponent ← readExponent rest
      some (nearest negative (digitsValue (whole ++ fraction)) (exponent - fraction.length))

end Decimal
end PatternLoom
