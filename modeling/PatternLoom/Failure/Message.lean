import PatternLoom.Arrangement
import PatternLoom.Catalog

/-! The wording of failures. -/

namespace PatternLoom
namespace ImportRefusal

/-- A stable name for programs. -/
def code : ImportRefusal → String
  | independentSequences => "unsupported_midi_type"
  | tooManyNotes _ _ => "note_limit_exceeded"
  | _ => "invalid_midi"

def message : ImportRefusal → String
  | tooSmall => "MIDI file is too small."
  | noHeader => "Missing MIDI header chunk."
  | independentSequences => "MIDI type 2 files are not supported."
  | undecodable => "MIDI parser rejected file content."
  | timeDivision => "MIDI file has an unsupported time division."
  | noNotes => "No playable notes found in MIDI file."
  | tooManyNotes notes limit =>
    "MIDI note limit exceeded (" ++ toString notes ++ " > " ++ limit ++ ")."
  | unusableContent => "MIDI import failed due to invalid or unsupported file content."

end ImportRefusal

namespace Failure

/-- What a user is told; arithmetic and decoding failures have no wording of their own. -/
def message : Failure → Option String
  | negativeWeight pattern => some ("Pattern weight must not be negative: " ++ shown pattern)
  | unknownKind kind layer =>
    some ("Unknown layer kind '" ++ kind ++ "' for layer '" ++ layer ++ "'")
  | duplicateLayer layer => some ("Duplicate layer id '" ++ layer ++ "'")
  | phaseWithoutRange phase => some ("Phase " ++ phase ++ " is missing bars/pct")
  | unknownParamType type key =>
    some ("Unknown parameter type '" ++ type ++ "' for '" ++ key ++ "'")
  | maxBelowMin key => some ("Parameter '" ++ key ++ "' has max below min")
  | stepNotPositive key => some ("Parameter '" ++ key ++ "' needs a positive step")
  | tempoNotPositive bpm => some ("bpm must be positive, got " ++ Decimal.shortestText bpm)
  | noSections => some "At least one section weight is required"
  | tooFewBars bars sections minimum =>
    some (toString bars ++ " bars cannot hold " ++ toString sections ++
      " sections of at least " ++ toString minimum ++ " bars")
  | unknownStyle style =>
    some ("Unknown arrangement style '" ++ style ++ "'. Available: " ++
      ", ".intercalate (blueprints.map Blueprint.key))
  | unknownLength length =>
    some ("Unknown length preset '" ++ length ++ "'. Available: " ++
      ", ".intercalate (lengths.map (·.1)))
  | unknownTemplate name =>
    some ("Unknown template '" ++ name ++ "'. Available: " ++ ", ".intercalate catalogIds)
  | unknownOptions names => some ("Unknown MIDI import options: " ++ ", ".intercalate names)
  | malformedOverride item =>
    some ("Parameter override '" ++ item ++ "' is not in key=value form")
  | noTemplateGiven =>
    some "No template given (pass TEMPLATE or set generator.template in the config)"
  | refusedImport reason => some reason.message
  | _ => none

end Failure
end PatternLoom
