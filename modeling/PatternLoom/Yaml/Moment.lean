import PatternLoom.Decimal.Numeral
import PatternLoom.Failure

/-! Dates, and moments with a time of day and perhaps its distance from that of the prime
meridian. -/

namespace PatternLoom
namespace Yaml

structure TimeOfDay where
  hour : Nat
  minute : Nat
  second : Nat
  microsecond : Nat
  /-- The distance from the time of the prime meridian, in minutes. -/
  zone : Option Int

structure Moment where
  year : Nat
  month : Nat
  day : Nat
  time : Option TimeOfDay

namespace Moment

/-- A number of at least and at most so many digits, and what follows it. -/
def number (least most : Nat) (cs : List Char) : Option (Nat × List Char) :=
  let ds := (cs.takeWhile isAsciiDigit).take most
  if ds.length < least then none else some (Decimal.digitsValue ds, cs.drop ds.length)

def behind (mark : Char) : List Char → Option (List Char)
  | c :: cs => if c = mark then some cs else none
  | [] => none

def isGap (c : Char) : Bool := c = ' ' || c = '\t'

/-- What follows the gap between a date and a time. -/
def behindDate : List Char → Option (List Char)
  | c :: cs =>
    if c = 'T' || c = 't' then some cs
    else if isGap c then some (cs.dropWhile isGap)
    else none
  | [] => none

/-- The digits behind a point, cut or filled up to six, and what follows them. -/
def microseconds : List Char → Nat × List Char
  | '.' :: cs =>
    let ds := cs.takeWhile isAsciiDigit
    (Decimal.digitsValue ((ds ++ List.replicate 6 '0').take 6), cs.drop ds.length)
  | cs => (0, cs)

def zone? (cs : List Char) : Option (Option Int) :=
  match cs, cs.dropWhile isGap with
  | [], _ => some none
  | _, ['Z'] => some (some 0)
  | _, sign :: cs => do
    if sign ≠ '+' ∧ sign ≠ '-' then none
    else
      let (hours, cs) ← number 1 2 cs
      let minutes ←
        if cs.isEmpty then pure 0
        else match ← number 2 2 (← behind ':' cs) with
          | (minutes, []) => pure minutes
          | _ => none
      let distance : Int := hours * 60 + minutes
      return some (if sign = '-' then -distance else distance)
  | _, [] => none

def time? (cs : List Char) : Option TimeOfDay := do
  let (hour, cs) ← number 1 2 cs
  let (minute, cs) ← number 2 2 (← behind ':' cs)
  let (second, cs) ← number 2 2 (← behind ':' cs)
  let (microsecond, cs) := microseconds cs
  return ⟨hour, minute, second, microsecond, ← zone? cs⟩

/-- A date, and perhaps a time. -/
def ofText? (cs : List Char) : Option Moment := do
  let (year, rest) ← number 4 4 cs
  let (month, rest) ← number 1 2 (← behind '-' rest)
  let (day, rest) ← number 1 2 (← behind '-' rest)
  if rest.isEmpty then return ⟨year, month, day, none⟩
  else return ⟨year, month, day, some (← time? (← behindDate rest))⟩

/-- Whether plain text is a moment. A date by itself has all its digits. -/
def isPlain (cs : List Char) : Bool := (ofText? cs).any fun m => m.time.isSome || cs.length == 10

def isLeapYear (year : Nat) : Bool := year % 4 = 0 && (year % 100 ≠ 0 || year % 400 = 0)

def daysInMonth (year month : Nat) : Nat :=
  if month = 2 then if isLeapYear year then 29 else 28
  else if month ∈ [4, 6, 9, 11] then 30 else 31

def minutesPerDay : Nat := 24 * 60

/-- What is wrong with a moment that there cannot be. -/
def fault? (m : Moment) : Option MomentFault :=
  let far := (m.time.bind (·.zone)).filter (minutesPerDay ≤ ·.natAbs)
  match far with
  | some minutes => some (.zone minutes)
  | none =>
    if m.year = 0 then some .year
    else if m.month = 0 || 12 < m.month then some .month
    else if m.day = 0 || daysInMonth m.year m.month < m.day then some .day
    else m.time.bind fun t =>
      if 24 ≤ t.hour then some .hour
      else if 60 ≤ t.minute then some .minute
      else if 60 ≤ t.second then some .second
      else none

def padded (width n : Nat) : List Char :=
  let ds := (toString n).toList
  List.replicate (width - ds.length) '0' ++ ds

def zoneText (minutes : Int) : List Char :=
  let n := minutes.natAbs
  (if minutes < 0 then '-' else '+') :: padded 2 (n / 60) ++ ':' :: padded 2 (n % 60)

def timeText (t : TimeOfDay) : List Char :=
  padded 2 t.hour ++ ':' :: padded 2 t.minute ++ ':' :: padded 2 t.second ++
    (if t.microsecond = 0 then [] else '.' :: padded 6 t.microsecond) ++
    (t.zone.map zoneText).getD []

def text (m : Moment) : List Char :=
  padded 4 m.year ++ '-' :: padded 2 m.month ++ '-' :: padded 2 m.day ++
    (m.time.map fun t => ' ' :: timeText t).getD []

end Moment

/-- The standard text of the moment that a text gives. -/
def momentText (cs : List Char) : Option (Result (List Char)) :=
  (Moment.ofText? cs).map fun m =>
    match m.fault? with
    | some fault => .error (.noSuchMoment fault)
    | none => .ok m.text

end Yaml
end PatternLoom
