import PatternLoom.Yaml.Cursor
import PatternLoom.Yaml.Node

/-! Reading the tokens of a settings document one after another. A node may have a name, and
the name may stand for it further on. -/

namespace PatternLoom
namespace Yaml

/-- How far the tokens have been read, and the nodes that have names. A node that is still
being read has its name already. -/
structure Reading where
  tokens : List Token
  named : List (List Char × Option Node) := []

abbrev Reader := StateT Reading Result

namespace Reader

def fail {α : Type} : Reader α := fun _ => malformed

def ahead : Reader (Option Token) := do
  match (← get).tokens.head? with
  | some (.fault f) => throw f
  | t => return t

def skip : Reader Unit := modify fun s => { s with tokens := s.tokens.tail }

/-- Whether one of the tokens is ahead, or nothing. -/
def stops (ts : List Token) : Reader Bool := do
  return match ← ahead with
    | none => true
    | some t => ts.contains t

def passes (t : Token) : Reader Bool := do
  if (← ahead) = some t then
    skip
    return true
  else return false

def expect (t : Token) : Reader Unit := do
  if !(← passes t) then fail

/-- Gives a name to a node that is about to be read. -/
def announce (name : List Char) : Reader Unit := do
  let s ← get
  if s.named.any (·.1 = name) then fail
  else set { s with named := (name, none) :: s.named }

/-- Gives the name to the node that has been read. -/
def settle (name : List Char) (n : Node) : Reader Unit :=
  modify fun s =>
    { s with named := s.named.map fun (m, old) => (m, if m = name then some n else old) }

/-- The node with a name. A node cannot be inside of itself. -/
def lookUp (name : List Char) : Reader Node := do
  match (← get).named.lookup name with
  | some (some n) => return n
  | _ => fail

def anchor? : Reader (Option (List Char)) := do
  match ← ahead with
  | some (.anchor name) =>
    skip
    return some name
  | _ => return none

def tag? : Reader (Option WrittenTag) := do
  match ← ahead with
  | some (.tag t) =>
    skip
    return some t
  | _ => return none

/-- The name and the tag of a node, in any order. -/
def properties : Reader (Option (List Char) × Option WrittenTag) := do
  match ← anchor? with
  | some name => return (some name, ← tag?)
  | none =>
    let tag ← tag?
    return (← anchor?, tag)

end Reader

end Yaml
end PatternLoom
