import PatternLoom.Value

/-! Settings: a map of named sections, each a map of named values. -/

namespace PatternLoom

abbrev Section := List (Value × Value)

namespace Section

def get? (s : Section) (name : String) : Option Value :=
  match s with
  | [] => none
  | (.text key, value) :: rest => if key = name then some value else get? rest name
  | _ :: rest => get? rest name

/-- A value that is set to something. -/
def given? (s : Section) (name : String) : Option Value :=
  match s.get? name with
  | some .null => none
  | value => value

end Section

namespace Settings

/-- A section of the settings, empty if it is missing or is no map. -/
def section? (settings : Value) (name : String) : Result Section :=
  match settings with
  | .map entries =>
    match Section.get? entries name with
    | some (.map entries) => .ok entries
    | _ => .ok []
  | _ => .error .noSettings

end Settings
end PatternLoom
