import PatternLoom.Table
import PatternLoom.Text.Blank
import PatternLoom.Yaml.Document

/-! Parameters given on the command line as items `key=value`. -/

namespace PatternLoom

def partItem : List Char → Option (List Char × List Char)
  | [] => none
  | '=' :: cs => some ([], cs)
  | c :: cs => (partItem cs).map fun (key, value) => (c :: key, value)

/-- The key and the value of an item. The value is read as a document, unless it is blank
and so stands for itself. -/
def readOverride (item : String) : Result (String × Value) :=
  match partItem item.toList with
  | none => .error (.malformedOverride item)
  | some (key, value) => do
    if (trim key).isEmpty then throw (.malformedOverride item)
    let value' := String.ofList value
    let value ← if (trim value).isEmpty then pure (.text value') else Yaml.load value'
    return (String.ofList (trim key), value)

/-- The parameters of a list of items; of two with one key the later wins. -/
def readOverridesFrom (params : Params) : List String → Result Params
  | [] => .ok params
  | item :: items => do
    let (key, value) ← readOverride item
    readOverridesFrom (params.put key value) items

def readOverrides (items : List String) : Result Params := readOverridesFrom [] items

end PatternLoom
