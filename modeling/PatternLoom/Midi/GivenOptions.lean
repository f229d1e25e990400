import PatternLoom.Midi.Import
import PatternLoom.Value

/-! Import options as they are given, of whatever kind. Whether a kind will do comes to light
only when an import makes use of the option. -/

namespace PatternLoom

/-- A quantity in a value; truth values count as one and zero. -/
def Value.quantity : Value → Result Quantity
  | int n => .ok (.whole n)
  | bool b => .ok (.whole (if b then 1 else 0))
  | real x => .ok (.real x)
  | _ => .error .wrongKind

/-- A count in a value. A number with a point is none, unless it is not above zero. -/
def Value.count : Value → Result Int
  | int n => .ok n
  | bool b => .ok (if b then 1 else 0)
  | real x => if 0 < x then .error .wrongKind else .ok 0
  | _ => .error .wrongKind

def Value.ofQuantity : Quantity → Value
  | .whole n => int n
  | .real x => real x

namespace Midi

structure GivenOptions where
  division : Option Value := none
  maxTracks : Option Value := none
  maxNotes : Option Value := none
  preferSharps : Option Value := none
  velocityGain : Option Value := none

namespace GivenOptions

/-- The options in a table of values. Those that are null are not given. Fails if there are
names that are not those of options. -/
def ofTable (values : Table Value) : Result GivenOptions := do
  checkOptionNames (values.map (·.1))
  let given := fun name => (values.get? name).filter (!·.isNull)
  return {
    division := given "quantize_division"
    maxTracks := given "max_tracks"
    maxNotes := given "max_notes"
    preferSharps := given "prefer_sharps"
    velocityGain := given "include_velocity_as_gain" }

/-- Every option by name, the standard one where none is given. -/
def resolved (given : GivenOptions) : Table Value :=
  let standard : ImportOptions := {}
  optionNames.zip [
    given.division.getD (.ofQuantity standard.division),
    given.maxTracks.getD (.int standard.maxTracks),
    given.maxNotes.getD (.ofQuantity standard.maxNotes),
    given.preferSharps.getD (.bool standard.preferSharps),
    given.velocityGain.getD (.bool standard.velocityGain)]

/-- The options that matter to the steps of a track. -/
def stepOptions (given : GivenOptions) : Result ImportOptions := do
  let standard : ImportOptions := {}
  let division := (← given.division.mapM Value.quantity).getD standard.division
  return { standard with
    division := division
    preferSharps := (given.preferSharps.map Value.isTrue).getD standard.preferSharps
    velocityGain := (given.velocityGain.map Value.isTrue).getD standard.velocityGain }

/-- What becomes of a refusal that names a limit, as it is given. A limit that cannot be written
spoils the import. -/
def naming (limit : Value) (refusal : Failure) : Failure :=
  if limit.isWritable then refusal else .refusedImport .unusableContent

/-- The options for the import of a score. What is wrong with the score comes before what is
wrong with the options that it was not yet checked against. -/
def optionsFor (given : GivenOptions) (score : Score) : Result ImportOptions := do
  let standard : ImportOptions := {}
  score.checkTicks
  let maxTracks := (← given.maxTracks.mapM Value.count).getD standard.maxTracks
  let limit := given.maxNotes.getD (.ofQuantity standard.maxNotes)
  let maxNotes ← limit.quantity
  let sized := { standard with maxTracks := maxTracks, maxNotes := maxNotes }
  (score.checkNotes sized limit.toText).mapError (naming limit)
  return { (← given.stepOptions) with maxTracks := maxTracks, maxNotes := maxNotes }

end GivenOptions

def importGiven (data : List UInt8) (filename : String) (given : GivenOptions) :
    Result Import :=
  refuseUnusable do
    let score ← Score.read data
    score.convert filename (← given.optionsFor score)

end Midi
end PatternLoom
