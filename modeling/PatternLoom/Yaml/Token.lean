import PatternLoom.Failure

/-! The tokens of a settings document. Blocks that are told apart by their columns show as
marks for where they open and close. -/

namespace PatternLoom
namespace Yaml

/-- A tag as it is written: the handle of its family, if it has one, and the rest. -/
structure WrittenTag where
  handle : Option (List Char)
  rest : List Char
  deriving DecidableEq

/-- What a line that starts with a percent sign says about the document below it. -/
inductive Directive where
  | version (major : Nat)
  | family (handle tagStart : List Char)
  | unknown
  deriving DecidableEq

inductive Token where
  | directive (d : Directive)
  | documentStart
  | documentEnd
  | openItems
  | openEntries
  | closeBlock
  | openList
  | closeList
  | openMap
  | closeMap
  | comma
  | item
  | key
  | value
  | reference (name : List Char)
  | anchor (name : List Char)
  | tag (t : WrittenTag)
  | scalar (plain : Bool) (text : List Char)
  /-- Where the text cannot be read on. -/
  | fault (f : Failure)
  deriving DecidableEq

end Yaml
end PatternLoom
