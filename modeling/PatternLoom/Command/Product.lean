import PatternLoom.Catalog
import PatternLoom.Record

/-! What a command produces: a listing of the catalog, or a program with its record. -/

namespace PatternLoom

inductive Product where
  | listing
  | piece (p : Piece)
  | arrangement (p : Piece) (sections : List ArrangedSection)
  | imported (r : Midi.Import)

def Template.listingLine (t : Template) : String :=
  let padding := String.ofList (List.replicate (20 - t.id.length) ' ')
  let params := t.defaults.map fun (key, value) => key ++ "=" ++ value.toText
  t.id ++ padding ++ " " ++ t.label ++ " - " ++ Decimal.compact t.bpm ++ " BPM, " ++
    toString t.bars ++ " bars (" ++ ", ".intercalate params ++ ")"

namespace Product

/-- The product with its program changed, if it has one. -/
def mapCode (f : String → String) : Product → Product
  | listing => listing
  | piece p => piece { p with code := f p.code }
  | arrangement p sections => arrangement { p with code := f p.code } sections
  | imported r => imported { r with code := f r.code }

def text : Product → String
  | listing => "\n".intercalate (catalog.map Template.listingLine)
  | piece p => p.code
  | arrangement p _ => p.code
  | imported r => r.code

def record (stamp : Stamp) : Product → Json
  | listing => .object [("templates", .array (catalog.map Template.json))]
  | piece p => .object (p.fields stamp)
  | arrangement p sections =>
    .object (p.fields stamp ++
      [("sections", .array (sections.map (·.json p.templateId)))])
  | imported r => .object r.fields

def pieceSummary (p : Piece) : String := p.name ++ " - seed " ++ p.seed

def sectionSummary (s : ArrangedSection) : String :=
  s.label ++ ": " ++ toString s.bars ++ " bars, energy " ++ Decimal.shortestText s.energy

def summary : Product → List String
  | listing => []
  | piece p => [pieceSummary p]
  | arrangement p sections => pieceSummary p :: sections.map sectionSummary
  | imported r => r.summary

end Product
end PatternLoom
