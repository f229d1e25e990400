import PatternLoom.Binary64.Arithmetic
import PatternLoom.Midi.File
import PatternLoom.Text.Blank

/-! Scores: the notes of each track of a file with their times in ticks. A note sounds from
a note-on to the note-off that closes it; for each channel and pitch the notes close in the
order in which they began, and those still sounding end with their track. -/

namespace PatternLoom
namespace Midi

structure TickNote where
  pitch : Int
  velocity : Binary64
  start : Int
  duration : Int
  channel : Option Int
  program : Option Int
  deriving DecidableEq

/-- `ignored` counts the events that say nothing about notes. -/
structure TickTrack where
  index : Nat
  name : String
  notes : List TickNote
  ignored : Int := 0

structure Score where
  format : Int
  ticksPerBeat : Int
  tracks : List TickTrack
  tempos : List (Int × Binary64)
  signatures : List (Int × Int × Int)
  ignored : Int

structure OpenNote where
  start : Nat
  velocity : Binary64
  program : Option Nat

abbrev Key := Nat × Nat

/-- The open notes of each key, the oldest first, with the keys in the order in which they
were first met. -/
abbrev OpenNotes := List (Key × List OpenNote)

namespace OpenNotes

/-- Changes the queue of a key, which is met now if it was not before. -/
def update (key : Key) (f : List OpenNote → List OpenNote) : OpenNotes → OpenNotes
  | [] => [(key, f [])]
  | (k, queue) :: rest => if k = key then (k, f queue) :: rest else (k, queue) :: update key f rest

def queue (key : Key) (opened : OpenNotes) : List OpenNote := (opened.lookup key).getD []

end OpenNotes

def OpenNote.closed (n : OpenNote) (key : Key) (tick : Nat) : TickNote :=
  ⟨key.2, n.velocity, n.start, max 1 ((tick : Int) - n.start), some key.1, n.program.map Int.ofNat⟩

/-- What is known of a track part way through it; `closed` has the last note first. -/
structure Pairing where
  tick : Nat := 0
  name : String := ""
  ignored : Nat := 0
  programs : List (Nat × Nat) := []
  opened : OpenNotes := []
  closed : List TickNote := []

/-- A velocity as a share of the greatest one. -/
@[irreducible]
def velocityShare (velocity : Nat) : Binary64 := .ofFraction false velocity 127

namespace Pairing

def begun (p : Pairing) (channel velocity : Nat) : OpenNote :=
  ⟨p.tick, velocityShare velocity, p.programs.lookup channel⟩

def press (p : Pairing) (key : Key) (velocity : Nat) : Pairing :=
  { p with opened := p.opened.update key (· ++ [p.begun key.1 velocity]) }

/-- Closes the oldest open note of a key, if there is one. -/
def release (p : Pairing) (key : Key) : Pairing :=
  let p' := { p with opened := p.opened.update key (·.drop 1) }
  match p.opened.queue key with
  | [] => p'
  | note :: _ => { p' with closed := note.closed key p.tick :: p.closed }

def step (p : Pairing) (e : Event) : Pairing :=
  let p := { p with tick := p.tick + e.delta }
  match e.message with
  | .trackName name => if p.name.isEmpty then { p with name := name } else p
  | .program channel number => { p with programs := (channel, number) :: p.programs }
  | .noteOn channel pitch 0 => p.release (channel, pitch)
  | .noteOn channel pitch velocity => p.press (channel, pitch) velocity
  | .noteOff channel pitch => p.release (channel, pitch)
  | .expression => { p with ignored := p.ignored + 1 }
  | _ => p

/-- The notes still open, ended at the tick reached. -/
def stillOpen (p : Pairing) : List TickNote :=
  p.opened.flatMap fun (key, queue) => queue.map (·.closed key p.tick)

def notes (p : Pairing) : List TickNote := p.closed.reverse ++ p.stillOpen

end Pairing

/-- Order by start, then by pitch. -/
def TickNote.precedes (a b : TickNote) : Bool :=
  a.start < b.start || (a.start = b.start && a.pitch < b.pitch)

def pairing (events : List Event) : Pairing := events.foldl Pairing.step {}

def TickTrack.ofEvents (index : Nat) (events : List Event) : TickTrack :=
  let p := pairing events
  let name := trimText p.name
  { index := index
    name := if name.isEmpty then "Track " ++ toString (index + 1) else name
    notes := p.notes.mergeSort fun a b => !b.precedes a
    ignored := p.ignored }

/-- Each event with the tick at which it happens. -/
def timed (tick : Nat) : List Event → List (Nat × Message)
  | [] => []
  | e :: es => (tick + e.delta, e.message) :: timed (tick + e.delta) es

/-- Beats a minute of a tempo in microseconds a beat. -/
def beatsPerMinute (microseconds : Nat) : Result Binary64 := do
  let beats ← (60000000 : Binary64).quotient (← Binary64.ofInt microseconds)
  return beats * 4 / 4

def tempoEvents : List (Nat × Message) → Result (List (Int × Binary64))
  | [] => .ok []
  | (tick, .tempo microseconds) :: rest => do
    let bpm ← beatsPerMinute microseconds
    return (↑tick, bpm) :: (← tempoEvents rest)
  | _ :: rest => tempoEvents rest

def signatureEvents (messages : List (Nat × Message)) : List (Int × Int × Int) :=
  messages.filterMap fun (tick, message) =>
    match message with
    | .timeSignature numerator denominator => some (tick, numerator, denominator)
    | _ => none

def numberedTracks (index : Nat) : List (List Event) → List TickTrack
  | [] => []
  | events :: rest => TickTrack.ofEvents index events :: numberedTracks (index + 1) rest

def Score.ofFile (format : Nat) (file : File) : Result Score := do
  let messages := file.tracks.flatMap (timed 0)
  let tracks := numberedTracks 0 file.tracks
  return {
    format := format
    ticksPerBeat := file.ticksPerBeat
    tracks := tracks
    tempos := (← tempoEvents messages).mergeSort fun a b => a.1 ≤ b.1
    signatures := (signatureEvents messages).mergeSort fun a b => a.1 ≤ b.1
    ignored := (tracks.map TickTrack.ignored).foldl (· + ·) 0 }

def checkFormat (format : Nat) : Result Unit :=
  if format = 2 then .error (.refusedImport .independentSequences) else .ok ()

/-- The score of a file. Its format is checked before it is decoded. -/
def Score.read (data : List UInt8) : Result Score := do
  let format ← formatNumber data
  checkFormat format
  Score.ofFile format (← File.decode data)

end Midi
end PatternLoom
