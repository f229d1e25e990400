import PatternLoom.Binary64.Arithmetic
import PatternLoom.Decimal.Numeral
import PatternLoom.Text.Parts
import PatternLoom.Yaml.Moment

/-! What a scalar stands for. Plain text may be a name for null, yes or no, a whole number to
base two, eight, ten, sixteen or sixty, a number with a point, or a date; otherwise it is a text. A tag may ask for
a kind instead. -/

namespace PatternLoom
namespace Yaml

inductive Kind where
  | null
  | bool
  | int
  | real
  | text
  /-- A date, or a date with a time. -/
  | moment
  | list
  | map
  /-- A key whose value is a map, or a list of maps, to take the entries of. -/
  | merge
  /-- An equals sign, which is a text as a key and nothing anywhere else. -/
  | equalsSign
  /-- A kind that settings cannot hold. -/
  | foreign
  deriving DecidableEq

def tagStart : List Char := "tag:yaml.org,2002:".toList

def knownKinds : List (String × Kind) := [
  ("null", .null), ("bool", .bool), ("int", .int), ("float", .real), ("str", .text),
  ("timestamp", .moment), ("seq", .list), ("map", .map), ("merge", .merge), ("value", .equalsSign)]

def Kind.ofTag (tag : List Char) : Kind :=
  ((knownKinds.find? fun (name, _) => tagStart ++ name.toList == tag).map (·.2)).getD .foreign

/-- A word in lower case, capitalised, and in upper case. -/
def spellings (word : String) : List (List Char) :=
  match word.toList with
  | [] => []
  | c :: cs => [c :: cs, c.toUpper :: cs, (c :: cs).map Char.toUpper]

def nullNames : List (List Char) := [] :: ['~'] :: spellings "null"
def trueNames : List (List Char) := ["yes", "true", "on"].flatMap spellings
def falseNames : List (List Char) := ["no", "false", "off"].flatMap spellings
def infinityNames : List (List Char) := [".inf", ".Inf", ".INF"].map String.toList
def nanNames : List (List Char) := [".nan", ".NaN", ".NAN"].map String.toList

/-- Digits of a base with underscores among them. -/
def areDigits (base : Nat) (cs : List Char) : Bool :=
  !cs.isEmpty && cs.all fun c => c = '_' || (hexDigit? c).any (· < base)

/-- A part after the first of a number to base sixty. -/
def isSixtieth : List Char → Bool
  | [c] => isAsciiDigit c
  | [c, d] => '0' ≤ c && c ≤ '5' && isAsciiDigit d
  | _ => false

def isDigitOrGap (c : Char) : Bool := c = '_' || isAsciiDigit c

/-- A digit, and more digits with underscores among them. -/
def areDecimal : List Char → Bool
  | [] => false
  | c :: cs => isAsciiDigit c && cs.all isDigitOrGap

/-- Whether plain text is a whole number. One that starts with a zero is to base eight, and
none to base sixty does. -/
def isWhole (cs : List Char) : Bool :=
  match (Decimal.splitSign cs).2 with
  | ['0'] => true
  | '0' :: 'b' :: ds => areDigits 2 ds
  | '0' :: 'x' :: ds => areDigits 16 ds
  | '0' :: ds => areDigits 8 ds
  | ds =>
    match parts ':' ds with
    | [] => false
    | first :: more => areDecimal first && more.all isSixtieth

/-- Nothing, or an exponent with its sign. -/
def isExponent : List Char → Bool
  | [] => true
  | e :: sign :: ds =>
    (e = 'e' || e = 'E') && (sign = '+' || sign = '-') && !ds.isEmpty && ds.all isAsciiDigit
  | _ => false

/-- Whether plain text is a number with a point. Without digits before the point there is no
sign, and there is a digit right after it. -/
def isPointed (cs : List Char) : Bool :=
  let ds := (Decimal.splitSign cs).2
  let whole := ds.takeWhile (· ≠ '.')
  match ds.dropWhile (· ≠ '.') with
  | [] => false
  | _ :: more =>
    let fraction := more.takeWhile isDigitOrGap
    let exponent := more.dropWhile isDigitOrGap
    match parts ':' whole with
    | [first] =>
      isExponent exponent &&
        (areDecimal first || first.isEmpty && ds.length == cs.length && areDecimal fraction)
    | first :: sixtieths =>
      areDecimal first && sixtieths.all isSixtieth && exponent.isEmpty
    | [] => false

def plainKind (cs : List Char) : Kind :=
  if nullNames.contains cs then .null
  else if trueNames.contains cs || falseNames.contains cs then .bool
  else if infinityNames.contains (Decimal.splitSign cs).2 || nanNames.contains cs then .real
  else if isPointed cs then .real
  else if isWhole cs then .int
  else if Moment.isPlain cs then .moment
  else if cs = ['<', '<'] then .merge
  else if cs = ['='] then .equalsSign
  else if cs = ['!'] || cs = ['&'] || cs = ['*'] then .foreign
  else .text

def withoutUnderscores (cs : List Char) : List Char := cs.filter (· ≠ '_')

def inBase (base : Nat) (ds : List Char) : Result Int :=
  if !ds.isEmpty && ds.all (fun d => (hexDigit? d).any (· < base)) then
    .ok (valueInBase base ds)
  else .error (.malformedNumeral (some base) (String.ofList ds))

def decimalWhole (ds : List Char) : Result Int :=
  let text := String.ofList ds
  match Decimal.readInt text with
  | some n => .ok n
  | none =>
    .error <|
      if Decimal.digitLimit < ds.length && ds.all isAsciiDigit then .tooManyDigits ds.length
      else .malformedNumeral (some 10) text

def decimalReal (ds : List Char) : Result Binary64 :=
  let text := String.ofList ds
  match Decimal.readNumber text with
  | some x => .ok x
  | none => .error (.malformedNumeral none text)

def wholeOf (cs : List Char) : Result Int := do
  let cs := withoutUnderscores cs
  let (negative, ds) := Decimal.splitSign cs
  let n ← match ds with
    | [] => .error .noSuchPosition
    | ['0'] => .ok 0
    | '0' :: 'b' :: ds => inBase 2 ds
    | '0' :: 'x' :: ds => inBase 16 ds
    | '0' :: 'o' :: ds => inBase 8 ds
    | '0' :: _ => inBase 8 ds
    | ds => do
      let values ← (parts ':' ds).mapM decimalWhole
      pure (values.foldl (fun n value => n * 60 + value) 0)
  return if negative then -n else n

/-- The sum of parts with rising powers of sixty, the last part first. -/
def sixtieths (value : Binary64) (power : Int) : List Binary64 → Result Binary64
  | [] => .ok value
  | part :: parts => do sixtieths (value + part * (← Binary64.ofInt power)) (power * 60) parts

def realOf (cs : List Char) : Result Binary64 := do
  let cs := (withoutUnderscores cs).map Char.toLower
  let (negative, ds) := Decimal.splitSign cs
  if cs.isEmpty then throw .noSuchPosition
  else if ds = ".nan".toList then return .nan
  else
    let x ←
      if ds = ".inf".toList then pure (.infinity false)
      else match parts ':' ds with
        | [_] => decimalReal ds
        | several => do sixtieths 0 1 (← several.mapM decimalReal).reverse
    return if negative then -x else x

end Yaml
end PatternLoom
