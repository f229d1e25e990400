/-! What an import tells its user: notices of what was lost, one for each kind, and a
report for each track. -/

namespace PatternLoom
namespace Midi

structure Notice where
  code : String
  message : String
  count : Int := 1
  deriving DecidableEq

namespace Notice

/-- Adds a notice to a list with at most one of each code: counts add up, and the first
message stays. -/
def add (notices : List Notice) (n : Notice) : List Notice :=
  match notices with
  | [] => [n]
  | m :: rest => if m.code = n.code then { m with count := m.count + n.count } :: rest else m :: add rest n

def addAll (notices others : List Notice) : List Notice := others.foldl add notices

/-- The line that shows a notice, with its count if that is above one. -/
def line (n : Notice) : String :=
  "Warning: " ++ n.message ++ if 1 < n.count then " (" ++ toString n.count ++ ")" else ""

def tracksTruncated (kept dropped : Nat) : Notice :=
  ⟨"tracks_truncated", "Only the first " ++ toString kept ++ " tracks were imported.", dropped⟩

def tempoChanges (count : Nat) : Notice :=
  ⟨"tempo_changes_ignored", "Additional tempo changes were ignored.", count⟩

def signatureChanges (count : Nat) : Notice :=
  ⟨"time_signature_changes_ignored", "Additional time signature changes were ignored.", count⟩

def eventsIgnored (count : Int) : Notice :=
  ⟨"events_ignored", "Some non-note MIDI events were ignored.", count⟩

def trackSkipped : Notice :=
  ⟨"track_skipped_no_notes", "Some tracks were skipped because they contain no notes.", 1⟩

def overlapsRepaired (count : Nat) : Notice :=
  ⟨"overlap_repaired", "Overlapping notes were repaired during normalization.", count⟩

def fallbackInstruments (count : Nat) : Notice :=
  ⟨"unmapped_instrument_fallback",
    "Some tracks used fallback instruments due to unmapped/unknown MIDI programs.", count⟩

end Notice

inductive Role where
  | melodic
  | drum
  deriving DecidableEq

def Role.name : Role → String
  | melodic => "melodic"
  | drum => "drum"

structure TrackReport where
  index : Nat
  name : String
  role : Role
  notes : Nat
  channel : Option Int
  program : Option Int
  instrument : String
  skipped : Bool := false

def TrackReport.ofSkipped (index : Nat) (name : String) : TrackReport :=
  ⟨index, name, .melodic, 0, none, none, "Skipped", true⟩

end Midi
end PatternLoom
