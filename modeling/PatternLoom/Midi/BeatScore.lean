import PatternLoom.Decimal.Fixed
import PatternLoom.Midi.Notice
import PatternLoom.Midi.Score
import PatternLoom.Order
import PatternLoom.Quantity

/-! Scores with times in beats: one tempo and one meter, no tracks without notes, and no
two notes of one pitch at once. -/

namespace PatternLoom
namespace Midi

/-- How a file is imported. The grid has `division` steps a beat. -/
structure ImportOptions where
  division : Quantity := .whole 16
  maxTracks : Int := 24
  maxNotes : Quantity := .whole 100000
  preferSharps : Bool := false
  velocityGain : Bool := true

def optionNames : List String :=
  ["quantize_division", "max_tracks", "max_notes", "prefer_sharps", "include_velocity_as_gain"]

def checkOptionNames (names : List String) : Result Unit :=
  let unknown := names.filter (!optionNames.contains ·)
  if unknown.isEmpty then .ok ()
  else .error (.unknownOptions (unknown.mergeSort fun a b => a ≤ b))

structure BeatNote where
  pitch : Int
  velocity : Binary64
  start : Binary64
  duration : Binary64
  channel : Option Int
  program : Option Int
  deriving DecidableEq

def BeatNote.stop (n : BeatNote) : Binary64 := n.start + n.duration

/-- Order by start, then by pitch. -/
def BeatNote.precedes (a b : BeatNote) : Bool :=
  if a.start.equal b.start then decide (a.pitch < b.pitch) else decide (a.start < b.start)

def sortNotes (notes : List BeatNote) : List BeatNote :=
  sortBy BeatNote.precedes (fun n => !n.start.isNan) notes

structure BeatTrack where
  index : Nat
  name : String
  role : Role
  channel : Option Int
  program : Option Int
  notes : List BeatNote

structure BeatScore where
  filename : String
  ticksPerBeat : Int
  bpm : Binary64
  numerator : Int
  denominator : Int
  beatsPerBar : Quantity
  bars : Int
  totalBeats : Binary64
  tracks : List BeatTrack

def drumChannel : Int := 9

def bump (value : Option Int) : List (Option Int × Nat) → List (Option Int × Nat)
  | [] => [(value, 1)]
  | (v, n) :: rest => if v = value then (v, n + 1) :: rest else (v, n) :: bump value rest

/-- How often each value occurs, in the order in which the values are first met. -/
def tally (values : List (Option Int)) : List (Option Int × Nat) :=
  values.foldl (fun counts value => bump value counts) []

/-- The value that occurs most often, and the one met first of several. -/
def dominant (values : List (Option Int)) : Option Int :=
  match tally values with
  | [] => none
  | entry :: entries =>
    (entries.foldl (fun best entry => if best.2 < entry.2 then entry else best) entry).1

/-- Where the last note of each pitch ends. -/
abbrev Ends := List (Int × Binary64)

/-- The note moved behind the last one of its pitch and given a length if it has none, how
many of the two changes it took, and where it ends. A note whose times keep their values
stays as it is, down to the signs of zeros. -/
def repairNote (minDuration : Binary64) (ends : Ends) (n : BeatNote) :
    BeatNote × Nat × Binary64 :=
  let priorEnd := (ends.lookup n.pitch).getD (.infinity true)
  let moved := n.start < priorEnd
  let empty := n.duration ≤ 0
  let start := if moved then priorEnd else n.start
  let duration := if empty then minDuration else n.duration
  let repaired :=
    if start.equal n.start && duration.equal n.duration then n
    else { n with start := start, duration := duration }
  (repaired, (if moved then 1 else 0) + (if empty then 1 else 0), start + duration)

/-- Repairs notes in order, given where earlier ones end. -/
def repairFrom (minDuration : Binary64) (ends : Ends) : List BeatNote → List BeatNote × Nat
  | [] => ([], 0)
  | n :: notes =>
    let (repaired, changes, stop) := repairNote minDuration ends n
    let (rest, more) := repairFrom minDuration ((n.pitch, stop) :: ends) notes
    (repaired :: rest, changes + more)

/-- Notes in order without overlaps of one pitch, and how many changes that took. -/
def repairOverlaps (notes : List BeatNote) (minDuration : Binary64) : List BeatNote × Nat :=
  repairFrom minDuration [] (sortNotes notes)

/-- The largest of some numbers, the first one unless a later one is strictly larger. -/
def largest (xs : List Binary64) : Binary64 :=
  match xs with
  | [] => 0
  | x :: xs => xs.foldl Binary64.larger x

def totalBeats (tracks : List BeatTrack) : Binary64 :=
  largest (tracks.flatMap fun t => t.notes.map BeatNote.stop)

/-- The bars that hold a number of beats, at least one. -/
def barCount (total : Binary64) (beatsPerBar : Quantity) : Result Int := do
  return max 1 (← (← beatsPerBar.divides total).ceil)

def gridStep (division : Quantity) : Result Binary64 := division.atLeastOne.reciprocal

def TickNote.inBeats (n : TickNote) (ticksPerBeat : Int) (minDuration : Binary64) :
    Result BeatNote := do
  let start ← Binary64.ofQuotient n.start ticksPerBeat
  let duration ← Binary64.ofQuotient n.duration ticksPerBeat
  return ⟨n.pitch, n.velocity, start, minDuration.larger duration, n.channel, n.program⟩

/-- A track with notes, and how many changes its notes took. -/
def TickTrack.inBeats (t : TickTrack) (ticksPerBeat : Int) (minDuration : Binary64) :
    Result (BeatTrack × Nat) := do
  let channel := dominant (t.notes.map TickNote.channel)
  let program := dominant (t.notes.map TickNote.program)
  let notes ← t.notes.mapM (·.inBeats ticksPerBeat minDuration)
  let (notes, changes) := repairOverlaps notes minDuration
  let role := if channel = some drumChannel then .drum else .melodic
  return (⟨t.index, t.name, role, channel, program, notes⟩, changes)

def BeatTrack.report (t : BeatTrack) : TrackReport :=
  ⟨t.index, t.name, t.role, t.notes.length, t.channel, t.program,
    if t.role = .drum then "Drums" else "Unmapped", false⟩

structure Gathered where
  tracks : List BeatTrack := []
  notices : List Notice := []
  reports : List TrackReport := []

/-- Adds a track, or a report that it was skipped. -/
def Gathered.addTrack (g : Gathered) (ticksPerBeat : Int) (minDuration : Binary64)
    (t : TickTrack) : Result Gathered :=
  if t.notes.isEmpty then
    .ok { g with
      notices := Notice.add g.notices Notice.trackSkipped
      reports := g.reports ++ [TrackReport.ofSkipped t.index t.name] }
  else do
    let (track, changes) ← t.inBeats ticksPerBeat minDuration
    return {
      tracks := g.tracks ++ [track]
      notices := if 0 < changes then Notice.add g.notices (Notice.overlapsRepaired changes)
        else g.notices
      reports := g.reports ++ [track.report] }

def Gathered.checkTracks (g : Gathered) : Result Unit :=
  if g.tracks.isEmpty then .error (.refusedImport .noNotes) else .ok ()

namespace Score

/-- The tracks that are imported. -/
def kept (score : Score) (options : ImportOptions) : List TickTrack :=
  score.tracks.take options.maxTracks.toNat

def notices (score : Score) (options : ImportOptions) : List Notice :=
  let kept := (score.kept options).length
  let dropped := score.tracks.length - kept
  (if 0 < dropped then [Notice.tracksTruncated kept dropped] else []) ++
    (if 1 < score.tempos.length then [Notice.tempoChanges (score.tempos.length - 1)] else []) ++
    (if 1 < score.signatures.length then
      [Notice.signatureChanges (score.signatures.length - 1)] else []) ++
    (if 0 < score.ignored then [Notice.eventsIgnored score.ignored] else [])

def bpm (score : Score) : Binary64 := (score.tempos.head?.map (·.2)).getD 120

def meter (score : Score) : Int × Int := (score.signatures.head?.map (·.2)).getD (4, 4)

/-- The quarter notes in a bar, at least one. -/
def beatsPerBar (score : Score) : Result Quantity := do
  let (numerator, denominator) := score.meter
  return Quantity.atLeastOne (.real (← Binary64.ofQuotient (numerator * 4) denominator))

def gather (score : Score) (options : ImportOptions) (minDuration : Binary64) :
    Result Gathered :=
  (score.kept options).foldlM (·.addTrack score.ticksPerBeat minDuration)
    { notices := score.notices options }

/-- Fails if the file does not count its ticks by the beat. -/
def checkTicks (score : Score) : Result Unit :=
  if score.ticksPerBeat ≤ 0 then .error (.refusedImport .timeDivision) else .ok ()

/-- Fails if there are more notes than the options admit, naming the limit as it was given. -/
def checkNotes (score : Score) (options : ImportOptions) (limit : String) : Result Unit :=
  let notes := ((score.kept options).flatMap (·.notes)).length
  if options.maxNotes.isBelow notes then .error (.refusedImport (.tooManyNotes notes limit))
  else .ok ()

def inBeats (score : Score) (filename : String) (options : ImportOptions) :
    Result (BeatScore × List Notice × List TrackReport) := do
  score.checkTicks
  score.checkNotes options options.maxNotes.text
  let beatsPerBar ← score.beatsPerBar
  let minDuration ← gridStep options.division
  let gathered ← score.gather options minDuration
  gathered.checkTracks
  let total := totalBeats gathered.tracks
  let bars ← barCount total beatsPerBar
  return ({
    filename := filename
    ticksPerBeat := score.ticksPerBeat
    bpm := Decimal.roundTo 3 score.bpm
    numerator := score.meter.1
    denominator := score.meter.2
    beatsPerBar := beatsPerBar
    bars := bars
    totalBeats := total
    tracks := gathered.tracks }, gathered.notices, gathered.reports)

end Score
end Midi
end PatternLoom
