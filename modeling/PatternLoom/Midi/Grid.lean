import PatternLoom.Midi.BeatScore

/-! Scores on a grid: every note starts on a step and lasts for at least one. -/

namespace PatternLoom
namespace Midi

/-- The nearest step, a half going up. -/
def snap (x step : Binary64) : Result Binary64 := do
  return (← Binary64.ofInt (← (← x.quotient step).roundHalfUp)) * step

/-- Start and end move to the grid each by itself. -/
def BeatNote.onGrid (n : BeatNote) (step : Binary64) : Result BeatNote := do
  let start ← snap n.start step
  let stop ← snap n.stop step
  return { n with start := start, duration := step.larger (stop - start) }

def notesOnGrid (notes : List BeatNote) (step : Binary64) : Result (List BeatNote) := do
  return sortNotes (← notes.mapM (·.onGrid step))

def BeatTrack.onGrid (t : BeatTrack) (step : Binary64) : Result BeatTrack := do
  return { t with notes := ← notesOnGrid t.notes step }

/-- The score on the grid, with its length counted again. -/
def BeatScore.onGrid (score : BeatScore) (options : ImportOptions) : Result BeatScore := do
  let step ← gridStep options.division
  let tracks ← score.tracks.mapM (·.onGrid step)
  let total := Midi.totalBeats tracks
  return { score with
    tracks := tracks, totalBeats := total, bars := ← barCount total score.beatsPerBar }

end Midi
end PatternLoom
