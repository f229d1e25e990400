import PatternLoom.Binary64.Arithmetic
import PatternLoom.Decimal.Numeral
import PatternLoom.Text.Literal
import PatternLoom.Table

/-! Values of parameters and settings, whose kinds are known only when they are read. -/

namespace PatternLoom

inductive Value where
  | null
  | bool (b : Bool)
  | int (n : Int)
  | real (x : Binary64)
  | text (s : String)
  | list (items : List Value)
  | map (entries : List (Value × Value))

abbrev Params := Table Value

namespace Value

instance : Inhabited Value := ⟨null⟩

def isNull : Value → Bool
  | null => true
  | _ => false

/-- Null, false, zero and whatever is empty count as no, all else as yes. -/
def isTrue : Value → Bool
  | null => false
  | bool b => b
  | int n => n != 0
  | real x => !x.isZero
  | text s => !s.isEmpty
  | list items => !items.isEmpty
  | map entries => !entries.isEmpty

mutual

/-- The text of a value inside a list or a map, where texts are quoted. -/
def shownInside : Value → String
  | null => "None"
  | bool b => if b then "True" else "False"
  | int n => toString n
  | real x => Decimal.shortestText x
  | text s => PatternLoom.shown s
  | list items => "[" ++ ", ".intercalate (shownItems items) ++ "]"
  | map entries => "\x7b" ++ ", ".intercalate (shownEntries entries) ++ "\x7d"

def shownItems : List Value → List String
  | [] => []
  | v :: vs => shownInside v :: shownItems vs

def shownEntries : List (Value × Value) → List String
  | [] => []
  | (k, v) :: rest => (shownInside k ++ ": " ++ shownInside v) :: shownEntries rest

end

def toText : Value → String
  | text s => s
  | v => shownInside v

mutual

/-- Whether no integer in a value has more digits than one is written with. -/
def isWritable : Value → Bool
  | int n => n.natAbs < Nat.pow 10 Decimal.digitLimit
  | list items => areWritable items
  | map entries => haveWritable entries
  | _ => true

def areWritable : List Value → Bool
  | [] => true
  | v :: vs => isWritable v && areWritable vs

def haveWritable : List (Value × Value) → Bool
  | [] => true
  | (k, v) :: rest => isWritable k && isWritable v && haveWritable rest

end

/-- The text of a value, if it can be written. -/
def written (v : Value) : Result String :=
  if v.isWritable then .ok v.toText else .error .tooLongToWrite

/-- The number in a value, if it holds one; neither texts nor truth values do. -/
def number? : Value → Result (Option Binary64)
  | int n => do return some (← Binary64.ofInt n)
  | real x => .ok (some x)
  | _ => .ok none

/-- A finite number from a parameter, also from a text that spells one, and otherwise the
fallback. -/
def toNumber (fallback : Binary64) : Option Value → Result Binary64
  | some (int n) => Binary64.ofInt n
  | some (real x) => .ok (if x.isFinite then x else fallback)
  | some (text s) =>
    .ok <| match Decimal.readNumber s with
      | some x => if x.isFinite then x else fallback
      | none => fallback
  | _ => .ok fallback

def toBool (fallback : Bool) : Option Value → Bool
  | some (bool b) => b
  | _ => fallback

end Value
end PatternLoom
