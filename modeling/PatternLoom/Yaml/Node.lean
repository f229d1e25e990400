import PatternLoom.Yaml.Plain
import PatternLoom.Yaml.Token

/-! The nodes of a settings document: scalars, lists and maps, each with the kind that its
tag asks for or that its text has. -/

namespace PatternLoom
namespace Yaml

inductive Node where
  | scalar (kind : Kind) (text : List Char)
  | list (kind : Kind) (items : List Node)
  | map (kind : Kind) (entries : List (Node × Node))

namespace Node

def kind : Node → Kind
  | scalar kind _ | list kind _ | map kind _ => kind

def empty : Node := scalar .null []

end Node

/-- The families of tags that a document knows: their handles and how their tags start. -/
abbrev Families := List (List Char × List Char)

def standardFamilies : Families := [("!".toList, "!".toList), ("!!".toList, tagStart)]

/-- What a tag says about a node. -/
inductive Asked where
  | nothing
  /-- To take the text as if it were plain. -/
  | plainly
  | kind (k : Kind)

def WrittenTag.asks (families : Families) (t : WrittenTag) : Option Asked := do
  let full ← match t.handle with
    | none => pure t.rest
    | some handle => (families.lookup handle).map (· ++ t.rest)
  return if full = ['!'] then .plainly else .kind (Kind.ofTag full)

def Asked.orElse (asked : Asked) (k : Kind) : Kind :=
  match asked with
  | .kind k => k
  | _ => k

def Asked.scalarKind (asked : Asked) (plain : Bool) (text : List Char) : Kind :=
  match asked with
  | .nothing => if plain then plainKind text else .text
  | .plainly => plainKind text
  | .kind k => k

end Yaml
end PatternLoom
