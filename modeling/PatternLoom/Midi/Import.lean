import PatternLoom.Midi.Steps
import PatternLoom.Program

/-! Imported files as programs: header comments, a tempo statement and a stack with one
member for each track. -/

namespace PatternLoom
namespace Midi

/-- Every run of blanks as one space. -/
def collapseBlanks (afterBlank : Bool) : List Char → List Char
  | [] => []
  | c :: cs =>
    if isBlank c then if afterBlank then collapseBlanks true cs else ' ' :: collapseBlanks true cs
    else c :: collapseBlanks false cs

/-- A track name on one line. -/
def trackLabel (name : String) : String :=
  let label := trim (collapseBlanks false name.toList)
  if label.isEmpty then "Untitled Track" else String.ofList label

/-- A file name without its extension; a last point with nothing behind it is none. -/
def fileLabel (filename : String) : String :=
  let reversed := filename.toList.reverse
  let extension := reversed.takeWhile (· ≠ '.')
  match reversed.dropWhile (· ≠ '.') with
  | '.' :: base => if extension.isEmpty then filename else String.ofList base.reverse
  | _ => filename

def leastGain : Binary64 := 0.1
def mostGain : Binary64 := 1
def gainOffset : Binary64 := 0.1

/-- The gain of a track: that of its sound, scaled by the mean velocity of its notes or else
by itself, and raised a little. -/
def SoundTrack.gain (t : SoundTrack) (useVelocity : Bool) : Result Binary64 := do
  let level ← if useVelocity then do
      let notes := t.track.notes
      let count ← Binary64.ofInt (max 1 (notes.length : Int))
      pure (Decimal.roundTo 3 (Binary64.sum (notes.map BeatNote.velocity) / count))
    else pure t.sound.gain
  return Decimal.roundTo 3 (.clamp leastGain mostGain (level * t.sound.gain + gainOffset))

/-- The member of the stack that plays a track. -/
def SoundTrack.line (t : SoundTrack) (bars : Int) (beatsPerBar : Quantity)
    (options : ImportOptions) : Result String := do
  let tokens ← stepTokens t.track bars beatsPerBar options
  let pattern := literal (" ".intercalate tokens)
  let gain := Decimal.compact (← t.gain options.velocityGain)
  let slow := ".slow(" ++ toString bars ++ ")"
  let gainCall := ".gain(" ++ gain ++ ")"
  return match t.track.role with
  | .drum => "s(" ++ pattern ++ ")" ++ slow ++ ".bank(" ++ literal drumSound.sample ++ ")" ++ gainCall
  | .melodic => "note(" ++ pattern ++ ")" ++ slow ++ ".s(" ++ literal t.sound.sample ++ ")" ++ gainCall

def BeatScore.meterText (score : BeatScore) : String :=
  toString score.numerator ++ "/" ++ toString score.denominator

/-- What a track is called in comments and in the summary. -/
def SoundTrack.title (t : SoundTrack) : String :=
  "Track " ++ toString (t.track.index + 1) ++ ": " ++ trackLabel t.track.name ++ " - " ++
    t.sound.instrument

def SoundTrack.comment (t : SoundTrack) : String :=
  "// " ++ t.title ++ " (" ++ toString t.track.notes.length ++ " notes)"

def programHead (score : BeatScore) (tracks : List SoundTrack) (filename : String) :
    List String :=
  ["// MIDI import: " ++ fileLabel filename,
    "// Tempo: " ++ Decimal.compact score.bpm ++ " BPM | Time: " ++ score.meterText ++
      " | Bars: " ++ toString score.bars] ++
    tracks.map SoundTrack.comment ++ [tempoHeader score.bpm]

/-- The program of a score whose tracks have their sounds. -/
def BeatScore.program (score : BeatScore) (tracks : List SoundTrack) (filename : String)
    (options : ImportOptions) : Result String := do
  let members ← tracks.mapM (·.line score.bars score.beatsPerBar options)
  return "\n".intercalate (programHead score tracks filename) ++ "\nstack(\n" ++
    ",\n".intercalate (members.map ("  " ++ ·)) ++ "\n)"

def BeatScore.summary (score : BeatScore) (tracks : List SoundTrack) (filename : String) :
    List String :=
  ["Imported MIDI \"" ++ fileLabel filename ++ "\"",
    "Tempo " ++ Decimal.compact score.bpm ++ " BPM - " ++ score.meterText ++ " - " ++
      toString score.bars ++ " bars"] ++
    tracks.map fun t => t.title ++ " - " ++ toString t.track.notes.length ++ " notes"

structure Import where
  code : String
  bpm : Binary64
  bars : Int
  tracks : Nat
  notices : List Notice
  reports : List TrackReport
  summary : List String

/-- A score in beats as a program, with what there is to say about it. -/
def BeatScore.convert (beats : BeatScore) (notices : List Notice) (reports : List TrackReport)
    (filename : String) (options : ImportOptions) : Result Import := do
  let gridded ← beats.onGrid options
  let (tracks, fallbacks, reports) := gridded.withSounds reports
  let code ← gridded.program tracks filename options
  let notices := Notice.addAll (Notice.addAll [] notices) fallbacks
  return {
    code := code
    bpm := gridded.bpm
    bars := gridded.bars
    tracks := tracks.length
    notices := notices
    reports := reports
    summary := gridded.summary tracks filename ++ notices.map Notice.line }

def Score.convert (score : Score) (filename : String) (options : ImportOptions) :
    Result Import := do
  let (beats, notices, reports) ← score.inBeats filename options
  beats.convert notices reports filename options

/-- Failures that mean no more than that the content of a file cannot be used. -/
def unusable : Failure → Bool
  | .notANumber | .noSuchPosition => true
  | _ => false

/-- A result of an import, with one refusal for all content that cannot be used. -/
def refuseUnusable {α : Type} : Result α → Result α
  | .ok a => .ok a
  | .error failure =>
    .error (if unusable failure then .refusedImport .unusableContent else failure)

def importBytes (data : List UInt8) (filename : String) (options : ImportOptions) :
    Result Import :=
  refuseUnusable do (← Score.read data).convert filename options

def Notice.logLine (n : Notice) (filename : String) : String :=
  filename ++ ": " ++ n.message ++ " (" ++ n.code ++ ", " ++ toString n.count ++ ")"

end Midi
end PatternLoom
