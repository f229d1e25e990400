import PatternLoom.Value
import PatternLoom.Yaml.Grammar
import PatternLoom.Yaml.Layout

/-! The values of settings documents. Of the faults in a document the outermost counts, and
of several at one level the first. -/

namespace PatternLoom
namespace Yaml

/-- The entries of a map, in the order in which their keys were first set. -/
abbrev Entries := List (Value × Value)

/-- A whole number of units of `Binary64`, for the comparison of keys. -/
def keyUnits : Value → Option Int
  | .bool b => some (if b then unitsPerOne else 0)
  | .int n => some (n * unitsPerOne)
  | .real x => if x.isFinite then some x.units else none
  | _ => none

/-- Whether two values are one key: numbers and truth values compare by their amount. -/
def sameKey (a b : Value) : Bool :=
  match a, b with
  | .null, .null => true
  | .text s, .text t => s == t
  | .real x, .real y => x = y || x.equal y
  | a, b =>
    match keyUnits a, keyUnits b with
    | some m, some n => m == n
    | _, _ => false

/-- Sets a key, in place if it is there. -/
def putEntry (entries : Entries) (key value : Value) : Entries :=
  if entries.any fun e => sameKey e.1 key then
    entries.map fun e => if sameKey e.1 key then (e.1, value) else e
  else entries ++ [(key, value)]

/-- A failure, and how many lists and maps it is inside of. -/
structure Fault where
  depth : Nat
  failure : Failure

abbrev Checked := Except Fault

namespace Checked

def ofResult {α : Type} : Result α → Checked α
  | .ok a => .ok a
  | .error failure => .error ⟨0, failure⟩

def malformed {α : Type} : Checked α := .error ⟨0, .malformedDocument⟩

/-- What stands inside a list or a map. -/
def inside {α : Type} : Checked α → Checked α
  | .ok a => .ok a
  | .error fault => .error { fault with depth := fault.depth + 1 }

/-- Two things of one level. -/
def both {α β : Type} : Checked α → Checked β → Checked (α × β)
  | .ok a, .ok b => .ok (a, b)
  | .error f, .error g => .error (if g.depth < f.depth then g else f)
  | .error f, .ok _ => .error f
  | .ok _, .error g => .error g

def all {α : Type} : List (Checked α) → Checked (List α)
  | [] => .ok []
  | a :: rest => (both a (all rest)).map fun (a, rest) => a :: rest

end Checked

def scalarValue (kind : Kind) (text : List Char) : Result Value :=
  match kind with
  | .null => .ok .null
  | .bool =>
    let name := text.map Char.toLower
    if trueNames.contains name then .ok (.bool true)
    else if falseNames.contains name then .ok (.bool false)
    else malformed
  | .int => do return .int (← wholeOf text)
  | .real => do return .real (← realOf text)
  | .text => .ok (.text (String.ofList text))
  | .moment => do return .text (String.ofList (← (momentText text).getD malformed))
  | _ => malformed

/-- The value of a key. Lists and maps are no keys. -/
def Node.keyValue : Node → Checked Value
  | scalar .equalsSign text => .ok (.text (String.ofList text))
  | scalar kind text => .ofResult (scalarValue kind text)
  | _ => .malformed

/-- The entries of a map, each a key and a value, those that it takes over first. -/
abbrev CheckedEntries := List (Checked Value × Checked Value)

/-- A map of its entries, of which those with one key come to one. -/
def mapOf (entries : CheckedEntries) : Checked Value := do
  let entries ← Checked.all (entries.map fun (key, value) => Checked.both key value)
  return .map (entries.foldl (fun found (key, value) => putEntry found key value) [])

/-- A node that is not of the kind that its tag asks for. -/
def mismatch (kind : Kind) : Checked Value :=
  if kind = .list || kind = .map then Checked.inside .malformed else .malformed

mutual

def Node.value : Node → Checked Value
  | scalar kind text =>
    if kind = .list || kind = .map then mismatch kind else .ofResult (scalarValue kind text)
  | list kind items =>
    if kind = .list then Checked.inside do return .list (← Checked.all (Node.values items))
    else mismatch kind
  | map kind entries =>
    if kind = .map then
      Checked.inside do mapOf ((← Node.takenOver entries) ++ Node.ownEntries entries)
    else mismatch kind
termination_by structural n => n

def Node.values : List Node → List (Checked Value)
  | [] => []
  | n :: ns => n.value :: Node.values ns
termination_by structural ns => ns

def Node.ownEntries : List (Node × Node) → CheckedEntries
  | [] => []
  | (k, v) :: rest =>
    match k.kind with
    | .merge => Node.ownEntries rest
    | _ => (k.keyValue, v.value) :: Node.ownEntries rest
termination_by structural entries => entries

/-- The entries of a map that it takes over from others. -/
def Node.takenOver : List (Node × Node) → Checked CheckedEntries
  | [] => .ok []
  | (k, v) :: rest =>
    match k.kind with
    | .merge => do return (← Node.source v) ++ (← Node.takenOver rest)
    | _ => Node.takenOver rest
termination_by structural entries => entries

/-- The entries of a map or of a list of maps, of which the first counts most. -/
def Node.source : Node → Checked CheckedEntries
  | map _ entries => do return (← Node.takenOver entries) ++ Node.ownEntries entries
  | list _ items => Node.sources items
  | _ => .malformed
termination_by structural n => n

def Node.sources : List Node → Checked CheckedEntries
  | [] => .ok []
  | n :: rest => do
    match n with
    | .map _ _ =>
      let entries ← Node.source n
      return (← Node.sources rest) ++ entries
    | _ => .malformed
termination_by structural ns => ns

end

/-- The value of a document, null if it is empty. -/
def load (text : String) : Result Value := do
  if !text.toList.all isAllowed then malformed
  else
    let node ← nodeOf (tokens text.toList)
    match node.value with
    | .ok value => return value
    | .error fault => throw fault.failure

end Yaml
end PatternLoom
