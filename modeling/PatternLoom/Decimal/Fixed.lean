import PatternLoom.Binary64.Rounding

/-! Numbers to a fixed count of decimal places. The printed text and the rounded number
come from one integer, the exact value times a power of ten rounded with ties to even. -/

namespace PatternLoom
namespace Decimal

def digits (n : Nat) : List Char := Nat.toDigits 10 n

def paddedDigits (width n : Nat) : List Char :=
  List.replicate (width - (digits n).length) '0' ++ digits n

/-- The magnitude in units of the last decimal place. -/
def scaled (places u : Nat) : Nat := nearestEven (u * Nat.pow 10 places) unitsPerOne

def signText (negative : Bool) : String := if negative then "-" else ""

/-- `n` hundredths, thousandths and so on, written with every place. -/
def placedText (places n : Nat) : String :=
  String.ofList (digits (n / Nat.pow 10 places)) ++
    if places = 0 then ""
    else "." ++ String.ofList (paddedDigits places (n % Nat.pow 10 places))

def fixed (places : Nat) : Binary64 → String
  | .nan => "nan"
  | .infinity negative => signText negative ++ "inf"
  | .finite negative u _ => signText negative ++ placedText places (scaled places u)

/-- The number nearest to what `fixed` prints. -/
def roundTo (places : Nat) : Binary64 → Binary64
  | .finite negative u _ => .ofFraction negative (scaled places u) (Nat.pow 10 places)
  | x => x

/-- At most three places and no trailing zeros; `0` for what is not finite. -/
def compact : Binary64 → String
  | .finite negative u _ =>
    let n := scaled 3 u
    let fraction := ((paddedDigits 3 (n % 1000)).reverse.dropWhile (· = '0')).reverse
    signText (negative && n != 0) ++ String.ofList (digits (n / 1000)) ++
      if fraction.isEmpty then "" else "." ++ String.ofList fraction
  | _ => "0"

end Decimal
end PatternLoom
