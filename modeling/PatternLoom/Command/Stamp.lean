import PatternLoom.Record

/-! Identifiers, times and seeds for pieces that are made now, from random bytes and from the
clock. -/

namespace PatternLoom

/-- A random identifier of sixteen bytes in five groups, marked as random in the two places
that are kept for that. -/
def idText (bytes : List UInt8) : String :=
  let ns := (bytes.take 16).map UInt8.toNat
  let marked := (ns.modify 6 fun n => n % 16 + 64).modify 8 fun n => n % 64 + 128
  let ds := marked.flatMap (hexDigits 2)
  "-".intercalate <|
    [(0, 8), (8, 4), (12, 4), (16, 4), (20, 12)].map fun (start, count) =>
      String.ofList ((ds.drop start).take count)

def seedLetters : List Char := "0123456789abcdefghijklmnopqrstuvwxyz".toList

def seedText (bytes : List UInt8) : String :=
  String.ofList (bytes.map fun b => seedLetters.getD (b.toNat % seedLetters.length) '0')

/-- Year, month and day of a day counted from the first of January 1970, by eras of four
hundred years that begin in March. -/
def civilDate (day : Int) : Int × Int × Int :=
  let shifted := day + 719468
  let era := Int.fdiv shifted 146097
  let dayOfEra := shifted - era * 146097
  let yearOfEra := (dayOfEra - dayOfEra / 1460 + dayOfEra / 36524 - dayOfEra / 146096) / 365
  let dayOfYear := dayOfEra - (365 * yearOfEra + yearOfEra / 4 - yearOfEra / 100)
  let monthFromMarch := (5 * dayOfYear + 2) / 153
  let month := if monthFromMarch < 10 then monthFromMarch + 3 else monthFromMarch - 9
  let year := yearOfEra + era * 400 + (if month ≤ 2 then 1 else 0)
  (year, month, dayOfYear - (153 * monthFromMarch + 2) / 5 + 1)

def padded (width : Nat) (n : Int) : String := String.ofList (Decimal.paddedDigits width n.toNat)

/-- A time in milliseconds since the start of 1970, as date and time of day. -/
def timeText (milliseconds : Int) : String :=
  let day := Int.fdiv milliseconds 86400000
  let rest := milliseconds - day * 86400000
  let (year, month, dayOfMonth) := civilDate day
  padded 4 year ++ "-" ++ padded 2 month ++ "-" ++ padded 2 dayOfMonth ++ "T" ++
    padded 2 (rest / 3600000) ++ ":" ++ padded 2 (rest / 60000 % 60) ++ ":" ++
    padded 2 (rest / 1000 % 60) ++ "." ++ padded 3 (rest % 1000) ++ "Z"

end PatternLoom
