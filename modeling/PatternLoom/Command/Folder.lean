import PatternLoom.Failure
import PatternLoom.Table
import PatternLoom.Text.Parts

/-! The folder in which a run starts: the files that it may look at, by their paths, and the
folders that these paths name. -/

namespace PatternLoom

abbrev Folder := Table (List UInt8)

namespace Folder

/-- Whether a name in a path goes nowhere. -/
def staysPut (name : List Char) : Bool := name.isEmpty || name = ['.']

def goesUp (name : List Char) : Bool := name = ['.', '.']

def route (path : String) : List (List Char) :=
  (parts '/' path.toList).filter (!staysPut ·)

def fileAt (folder : Folder) (names : List (List Char)) : Option (String × List UInt8) :=
  folder.find? fun entry => route entry.1 = names

def isFolder (folder : Folder) (names : List (List Char)) : Bool :=
  folder.any fun entry => names.isPrefixOf (route entry.1) && route entry.1 ≠ names

/-- The route that the names of a path lead to from a folder. Of what is outside of the
starting folder nothing is known but its folders. Where a file may be made, the last name
may be a new one. -/
def walk (folder : Folder) (making : Bool) (here : List (List Char)) :
    List (List Char) → Except AccessProblem (List (List Char))
  | [] => .error .isFolder
  | name :: names =>
    if staysPut name then walk folder making here names
    else if goesUp name then
      if here.isEmpty then
        .error (if names.all fun n => staysPut n || goesUp n then .isFolder else .missing)
      else walk folder making here.dropLast names
    else
      let there := here ++ [name]
      let isFile := (folder.fileAt there).isSome
      if folder.isFolder there then walk folder making there names
      else if names.isEmpty then if isFile || making then .ok there else .error .missing
      else if making && names.all List.isEmpty then .error .isFolder
      else .error (if isFile then .notFolder else .missing)

/-- The route of a path at which a file can be opened. -/
def reach (folder : Folder) (making : Bool) (path : String) : Result (List (List Char)) :=
  let found := if path.toList.head?.all (· = '/') then .error .missing
    else folder.walk making [] (parts '/' path.toList)
  found.mapError (.cannotOpen · path)

def read (folder : Folder) (path : String) : Result (List UInt8) :=
  match folder.get? path with
  | some content => .ok content
  | none => do
    match folder.fileAt (← folder.reach false path) with
    | some entry => return entry.2
    | none => throw (.cannotOpen .missing path)

def has (folder : Folder) (path : String) : Bool :=
  match folder.read path with
  | .ok _ | .error (.cannotOpen .isFolder _) => true
  | .error _ => false

/-- The folder with a file written, under the path it had if it was there. -/
def write (folder : Folder) (path : String) (content : List UInt8) : Result Folder := do
  match folder.fileAt (← folder.reach true path) with
  | some entry => return folder.put entry.1 content
  | none => return folder.put path content

end Folder
end PatternLoom
