import PatternLoom.Command.Invocation
import PatternLoom.Midi.GivenOptions
import PatternLoom.Settings

/-! Import options from the command line and from the settings. -/

namespace PatternLoom

/-- What the command line gives, and otherwise the settings. -/
def ImportRequest.given (r : ImportRequest) (settings : Section) : Midi.GivenOptions where
  division := (r.division.map Value.int).or (settings.given? "quantize_division")
  maxTracks := (r.maxTracks.map Value.int).or (settings.given? "max_tracks")
  maxNotes := (r.maxNotes.map Value.int).or (settings.given? "max_notes")
  preferSharps := if r.sharps then some (.bool true) else settings.given? "prefer_sharps"
  velocityGain := if r.plainGain then some (.bool false)
    else settings.given? "include_velocity_as_gain"

def baseName (path : String) : String :=
  String.ofList (path.toList.reverse.takeWhile (· ≠ '/')).reverse

end PatternLoom
