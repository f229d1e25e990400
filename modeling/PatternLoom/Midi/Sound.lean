import PatternLoom.Midi.BeatScore

/-! Sounds for tracks: General MIDI programs by family, and the drum notes. -/

namespace PatternLoom
namespace Midi

structure Sound where
  instrument : String
  sample : String
  gain : Binary64

/-- The sounds of the families of eight programs each, from program 0 on. -/
def families : List Sound := [
  ⟨"Piano", "triangle", 0.5⟩,
  ⟨"Chromatic Percussion", "sine", 0.45⟩,
  ⟨"Organ", "square", 0.46⟩,
  ⟨"Guitar", "sawtooth", 0.5⟩,
  ⟨"Bass", "square", 0.54⟩,
  ⟨"Strings", "triangle", 0.44⟩,
  ⟨"Ensemble", "sine", 0.42⟩,
  ⟨"Brass", "sawtooth", 0.52⟩,
  ⟨"Reed", "square", 0.5⟩,
  ⟨"Pipe", "sine", 0.48⟩,
  ⟨"Synth Lead", "sawtooth", 0.46⟩,
  ⟨"Synth Pad", "triangle", 0.4⟩,
  ⟨"Synth FX", "square", 0.36⟩,
  ⟨"Ethnic", "triangle", 0.46⟩,
  ⟨"Percussive", "square", 0.45⟩,
  ⟨"SFX", "sawtooth", 0.35⟩]

def fallbackSound : Sound := ⟨"Fallback Synth", "sawtooth", 0.42⟩

/-- Drum tracks ignore their program and play through a drum machine. -/
def drumSound : Sound := ⟨"Drums", "Linn9000", 0.3⟩

def familySound (program : Option Int) : Option Sound :=
  match program with
  | some n => if n < 0 then none else families[n.toNat / 8]?
  | none => none

/-- The sound of a program, and whether the fallback had to stand in. -/
def programSound (program : Option Int) : Sound × Bool :=
  match familySound program with
  | some sound => (sound, false)
  | none => (fallbackSound, true)

structure SoundTrack where
  track : BeatTrack
  sound : Sound

def BeatTrack.sound (t : BeatTrack) : Sound × Bool :=
  match t.role with
  | .drum => (drumSound, false)
  | .melodic => programSound t.program

def BeatTrack.withSound (t : BeatTrack) : SoundTrack := ⟨t, t.sound.1⟩

/-- The report brought up to date with the last track of its index, if there is one. -/
def TrackReport.update (r : TrackReport) (tracks : List SoundTrack) : TrackReport :=
  match r.skipped, tracks.reverse.find? (·.track.index = r.index) with
  | false, some t =>
    { r with
      role := t.track.role
      notes := t.track.notes.length
      channel := t.track.channel
      program := t.track.program
      instrument := t.sound.instrument }
  | _, _ => r

/-- Every track with its sound, a notice if fallbacks had to stand in, and the reports
brought up to date. -/
def BeatScore.withSounds (score : BeatScore) (reports : List TrackReport) :
    List SoundTrack × List Notice × List TrackReport :=
  let tracks := score.tracks.map BeatTrack.withSound
  let fallbacks := score.tracks.countP fun t => t.sound.2
  (tracks, if 0 < fallbacks then [Notice.fallbackInstruments fallbacks] else [],
    reports.map (·.update tracks))

/-- The drum notes with samples of their own. -/
def drumTable : List (Int × String) := [
  (35, "bd"), (36, "bd"), (38, "sd"), (40, "sd"), (42, "hh"), (44, "hh"), (46, "hh"),
  (45, "sd"), (47, "sd"), (50, "sd"), (49, "cr"), (57, "cr")]

def nearestEntry (note : Int) (best : Int × String) : List (Int × String) → Int × String
  | [] => best
  | entry :: entries =>
    nearestEntry note
      (if (entry.1 - note).natAbs < (best.1 - note).natAbs then entry else best) entries

/-- The sample of a drum note, and whether it is that of the nearest note in the table. -/
def drumSample (note : Int) : String × Bool :=
  match drumTable.lookup note with
  | some sample => (sample, false)
  | none => ((nearestEntry note (35, "bd") drumTable).2, true)

def flatNames : List String :=
  ["c", "db", "d", "eb", "e", "f", "gb", "g", "ab", "a", "bb", "b"]

def sharpNames : List String :=
  ["c", "c#", "d", "d#", "e", "f", "f#", "g", "g#", "a", "a#", "b"]

/-- The name of a pitch with its octave; sixty is the C of the fourth. -/
def noteName (pitch : Int) (sharps : Bool) : String :=
  (if sharps then sharpNames else flatNames).getD (pitch % 12).toNat "" ++ toString (pitch / 12 - 1)

end Midi
end PatternLoom
