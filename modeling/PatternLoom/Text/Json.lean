import PatternLoom.Decimal.Shortest
import PatternLoom.Text.Literal

/-! JSON documents and their indented text. -/

namespace PatternLoom

inductive Json where
  | null
  | bool (b : Bool)
  | int (n : Int)
  | real (x : Binary64)
  | text (s : String)
  | array (items : List Json)
  | object (fields : List (String × Json))

namespace Json

def ofOption {α : Type} (f : α → Json) : Option α → Json
  | none => null
  | some a => f a

/-- The names for numbers that are not finite are those of common readers. -/
def realText : Binary64 → String
  | .nan => "NaN"
  | .infinity negative => Decimal.signText negative ++ "Infinity"
  | x => Decimal.shortestText x

def newline (depth : Nat) : String := "\n" ++ String.ofList (List.replicate (2 * depth) ' ')

mutual

/-- The text of a document nested `depth` levels deep, two spaces a level. -/
def render (depth : Nat) : Json → String
  | null => "null"
  | bool b => if b then "true" else "false"
  | int n => toString n
  | real x => realText x
  | text s => literal s
  | array [] => "[]"
  | array (x :: xs) =>
    "[" ++ newline (depth + 1) ++ render (depth + 1) x ++ renderItems (depth + 1) xs ++
      newline depth ++ "]"
  | object [] => "\x7b\x7d"
  | object ((k, x) :: fields) =>
    "\x7b" ++ newline (depth + 1) ++ literal k ++ ": " ++ render (depth + 1) x ++
      renderFields (depth + 1) fields ++ newline depth ++ "\x7d"

def renderItems (depth : Nat) : List Json → String
  | [] => ""
  | x :: xs => "," ++ newline depth ++ render depth x ++ renderItems depth xs

def renderFields (depth : Nat) : List (String × Json) → String
  | [] => ""
  | (k, x) :: fields =>
    "," ++ newline depth ++ literal k ++ ": " ++ render depth x ++ renderFields depth fields

end

end Json
end PatternLoom
