import PatternLoom.Arrangement
import PatternLoom.Midi.Import
import PatternLoom.Text.Json

/-! The records of pieces, arrangements, imports and templates, for other programs. -/

namespace PatternLoom

/-- What tells two pieces apart that are otherwise the same. -/
structure Stamp where
  id : String
  time : String

mutual

def Value.json : Value → Json
  | .null => .null
  | .bool b => .bool b
  | .int n => .int n
  | .real x => .real x
  | .text s => .text s
  | .list items => .array (Value.jsonItems items)
  | .map entries => .object (Value.jsonFields entries)

def Value.jsonItems : List Value → List Json
  | [] => []
  | v :: vs => v.json :: Value.jsonItems vs

def Value.jsonFields : List (Value × Value) → List (String × Json)
  | [] => []
  | (k, v) :: rest => (k.toText, v.json) :: Value.jsonFields rest

end

def paramsJson (params : Params) : Json := .object (params.map fun (key, v) => (key, v.json))

def Piece.fields (p : Piece) (stamp : Stamp) : List (String × Json) := [
  ("id", .text stamp.id), ("name", .text p.name), ("templateId", .text p.templateId),
  ("bpm", .real p.bpm), ("bars", .int p.bars), ("seed", .text p.seed),
  ("params", paramsJson p.params), ("code", .text p.code), ("createdAt", .text stamp.time),
  ("updatedAt", .text stamp.time), ("version", .int Piece.version)]

def ArrangedSection.json (s : ArrangedSection) (templateId : String) : Json :=
  .object [
    ("label", .text s.label), ("templateId", .text templateId), ("bars", .int s.bars),
    ("code", .text s.code), ("energy", .real s.energy),
    ("focusPhase", Json.ofOption .text s.focus)]

def Template.json (t : Template) : Json :=
  .object [
    ("id", .text t.id), ("label", .text t.label), ("description", .text t.description),
    ("bpm", .real t.bpm), ("bars", .int t.bars), ("params", paramsJson t.defaults)]

namespace Midi

def Notice.json (n : Notice) : Json :=
  .object [("code", .text n.code), ("message", .text n.message), ("count", .int n.count)]

def TrackReport.json (r : TrackReport) : Json :=
  .object ([
    ("trackIndex", .int r.index), ("name", .text r.name), ("role", .text r.role.name),
    ("noteCount", .int r.notes), ("channel", Json.ofOption .int r.channel),
    ("program", Json.ofOption .int r.program), ("instrument", .text r.instrument)] ++
    if r.skipped then [("skipped", .bool true)] else [])

def Import.fields (r : Import) : List (String × Json) := [
  ("code", .text r.code), ("bpm", .real r.bpm), ("bars", .int r.bars),
  ("tracksImported", .int r.tracks), ("warnings", .array (r.notices.map Notice.json)),
  ("trackReports", .array (r.reports.map TrackReport.json)),
  ("sectionSummary", .array (r.summary.map .text))]

end Midi
end PatternLoom
