import PatternLoom.Yaml.Reading

/-! From the tokens of a settings document to its node. -/

namespace PatternLoom
namespace Yaml

/-- Where a node stands. A list after a key may have its dashes in the column of the key. -/
inductive Site where
  | bracket
  | block
  | entry
  deriving DecidableEq

namespace Reader

mutual

def node (families : Families) : Nat → Site → Reader Node
  | 0, _ => fail
  | fuel + 1, site => do
    match ← ahead with
    | some (.reference name) =>
      skip
      lookUp name
    | _ =>
      let (name, tag) ← properties
      let asked ← match tag with
        | none => pure .nothing
        | some t => given (t.asks families)
      name.forM announce
      let n ← content families fuel site asked (name.isSome || tag.isSome)
      name.forM (settle · n)
      return n

/-- A node without its name and its tag. -/
def content (families : Families) : Nat → Site → Asked → Bool → Reader Node
  | 0, _, _, _ => fail
  | fuel + 1, site, asked, mayBeEmpty => do
    let blank := if mayBeEmpty then return .scalar (asked.scalarKind true []) [] else fail
    match ← ahead with
    | some (.scalar plain text) =>
      skip
      return .scalar (asked.scalarKind plain text) text
    | some .openList =>
      skip
      return .list (asked.orElse .list) (← listItems families fuel true)
    | some .openMap =>
      skip
      return .map (asked.orElse .map) (← mapEntries families fuel true)
    | some .openItems =>
      skip
      let items ← blockItems families fuel
      expect .closeBlock
      return .list (asked.orElse .list) items
    | some .openEntries =>
      skip
      let entries ← blockEntries families fuel
      expect .closeBlock
      return .map (asked.orElse .map) entries
    | some .item =>
      if site = .entry then return .list (asked.orElse .list) (← blockItems families fuel)
      else blank
    | _ => blank

/-- A node, or nothing where one of the tokens is ahead. -/
def nodeBefore (families : Families) : Nat → List Token → Site → Reader Node
  | 0, _, _ => fail
  | fuel + 1, ends, site => do
    if ← stops ends then return .empty else node families fuel site

def blockItems (families : Families) : Nat → Reader (List Node)
  | 0 => fail
  | fuel + 1 => do
    if ← passes .item then
      let item ← nodeBefore families fuel [.item, .key, .value, .closeBlock] .block
      return item :: (← blockItems families fuel)
    else return []

def blockEntries (families : Families) : Nat → Reader (List (Node × Node))
  | 0 => fail
  | fuel + 1 => do
    if ← passes .key then
      let entry ← pair families fuel [.key, .closeBlock] .entry
      return entry :: (← blockEntries families fuel)
    else return []

def pair (families : Families) : Nat → List Token → Site → Reader (Node × Node)
  | 0, _, _ => fail
  | fuel + 1, ends, site => do
    let key ← nodeBefore families fuel (.value :: ends) site
    if ← passes .value then
      let ends := if site = .entry then .value :: ends else ends
      return (key, ← nodeBefore families fuel ends site)
    else return (key, .empty)

/-- The items of a list up to its closing bracket. An item may be a map of one entry. -/
def listItems (families : Families) : Nat → Bool → Reader (List Node)
  | 0, _ => fail
  | fuel + 1, first => do
    if ← passes .closeList then return []
    else
      if !first then expect .comma
      if ← passes .closeList then return []
      else
        let item ←
          if ← passes .key then do
            pure (.map .map [← pair families fuel [.comma, .closeList] .bracket])
          else node families fuel .bracket
        return item :: (← listItems families fuel false)

/-- The entries of a map up to its closing bracket. A key without a colon has no value. -/
def mapEntries (families : Families) : Nat → Bool → Reader (List (Node × Node))
  | 0, _ => fail
  | fuel + 1, first => do
    if ← passes .closeMap then return []
    else
      if !first then expect .comma
      if ← passes .closeMap then return []
      else
        let entry ←
          if ← passes .key then pair families fuel [.comma, .closeMap] .bracket
          else do pure (← node families fuel .bracket, .empty)
        return entry :: (← mapEntries families fuel false)

end

/-- What the directives of a document say about families of tags. -/
structure Preamble where
  version : Option Nat := none
  families : Families := []

def preamble (found : Preamble) : Nat → Reader Preamble
  | 0 => fail
  | fuel + 1 => do
    match ← ahead with
    | some (.directive d) =>
      skip
      match d with
      | .version major =>
        if found.version.isSome || major ≠ 1 then fail
        else preamble { found with version := some major } fuel
      | .family handle tagStart =>
        if found.families.any (·.1 = handle) then fail
        else preamble { found with families := (handle, tagStart) :: found.families } fuel
      | .unknown => preamble found fuel
    | _ => return found

def endMarks : Nat → Reader Unit
  | 0 => fail
  | fuel + 1 => do
    if ← passes .documentEnd then endMarks fuel

/-- The node of a document, which is all there is. -/
def document (fuel : Nat) : Reader Node := do
  let n ← match ← ahead with
    | none => return .empty
    | some .documentStart | some (.directive _) => do
      let found ← preamble {} fuel
      expect .documentStart
      if ← stops [.documentStart, .documentEnd] then pure .empty
      else node (found.families ++ standardFamilies) fuel .block
    | _ => node standardFamilies fuel .block
  endMarks fuel
  if (← ahead).isSome then fail else return n

end Reader

def nodeOf (ts : List Token) : Result Node := do
  return (← (Reader.document (4 * ts.length + 8)).run ⟨ts, []⟩).1

end Yaml
end PatternLoom
