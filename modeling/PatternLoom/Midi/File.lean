import PatternLoom.Binary64.Logarithm
import PatternLoom.Failure

/-! Standard MIDI Files: a header chunk and track chunks of timed messages. -/

namespace PatternLoom
namespace Midi

/-- What a message says, as far as an import needs to know. -/
inductive Message where
  | noteOn (channel pitch velocity : Nat)
  | noteOff (channel pitch : Nat)
  | program (channel number : Nat)
  | trackName (name : String)
  | tempo (microseconds : Nat)
  | timeSignature (numerator denominator : Nat)
  /-- A controller or a pitch bend. -/
  | expression
  | other
  deriving DecidableEq

/-- A message, and the ticks since the one before it. -/
structure Event where
  delta : Nat
  message : Message
  deriving DecidableEq

structure File where
  ticksPerBeat : Int
  tracks : List (List Event)

/-- The bytes still to be read, and how many were read. -/
structure Cursor where
  rest : List UInt8
  position : Nat := 0

abbrev Decoder := StateT Cursor Result

namespace Decoder

def refuse {α : Type} : Decoder α := fun _ => .error (.refusedImport .undecodable)

def byte : Decoder Nat := fun c =>
  match c.rest with
  | [] => .error (.refusedImport .undecodable)
  | b :: rest => .ok (b.toNat, ⟨rest, c.position + 1⟩)

def bytes : Nat → Decoder (List Nat)
  | 0 => pure []
  | n + 1 => do
    let b ← byte
    return b :: (← bytes n)

/-- Big-endian. -/
def bigEndian (bs : List Nat) : Nat := bs.foldl (fun n b => n * 256 + b) 0

def variableLengthFrom (value position : Nat) : List UInt8 → Result (Nat × Cursor)
  | [] => .error (.refusedImport .undecodable)
  | b :: rest =>
    let value := value * 128 + b.toNat % 128
    if b.toNat < 128 then .ok (value, ⟨rest, position + 1⟩)
    else variableLengthFrom value (position + 1) rest

/-- A number in groups of seven bits, of which only the last has its high bit clear. -/
def variableLength : Decoder Nat := fun c => variableLengthFrom 0 c.position c.rest

def longestBlock : Nat := 1000000

def block : Decoder (List Nat) := do
  let length ← variableLength
  if longestBlock < length then refuse else bytes length

def chunkHeader : Decoder (List Nat × Nat) := do
  let name ← bytes 4
  return (name, bigEndian (← bytes 4))

/-- As many bytes as there are, up to a count. -/
def upTo (n : Nat) : Decoder (List Nat) := fun c =>
  .ok ((c.rest.take n).map UInt8.toNat, ⟨c.rest.drop n, c.position + (c.rest.take n).length⟩)

def signed (bits : Nat) (n : Nat) : Int := 
  if n < Nat.pow 2 (bits - 1) then n else n - Int.pow 2 bits

/-- Metas that are known and say nothing an import needs. -/
def silentMetas : List Nat := [0x01, 0x02, 0x04, 0x05, 0x06, 0x07, 0x09, 0x21, 0x2f, 0x7f]

/-- Whether `2 ^ power` may be the lower number of a meter. That it is a power of two is
decided by its logarithm, which has to come out whole: at 28 it does, at 29 it does not. -/
def acceptedPower (power : Nat) : Bool := (Binary64.baseTwoLog power).isWhole

/-- The message of a meta event, or none if its type is unknown. -/
def metaMessage (type : Nat) (data : List Nat) : Decoder (Option Message) :=
  match type, data with
  | 0x03, name => pure (some (.trackName (String.ofList (name.map Char.ofNat))))
  | 0x51, a :: b :: c :: _ => pure (some (.tempo (bigEndian [a, b, c])))
  | 0x51, _ => refuse
  | 0x58, numerator :: power :: _ :: _ :: _ =>
    if acceptedPower power then pure (some (.timeSignature numerator (Nat.pow 2 power))) else refuse
  | 0x58, _ => refuse
  | 0x59, key :: mode :: _ =>
    if (signed 8 key).natAbs ≤ 7 ∧ mode ≤ 1 then pure (some .other)
    else fun _ => .error .keySignature
  | 0x59, _ => refuse
  | 0x54, rate :: minutes :: seconds :: _ :: subframes :: _ =>
    if 3 < rate / 32 ∨ 59 < minutes ∨ 59 < seconds ∨ 99 < subframes then refuse
    else pure (some .other)
  | 0x54, _ => refuse
  | 0x00, [_] => refuse
  | 0x00, _ => pure (some .other)
  | 0x20, [] => refuse
  | 0x20, _ => pure (some .other)
  | type, _ => pure (if silentMetas.contains type then some .other else none)

def dataLength (status : Nat) : Option Nat :=
  if status < 0xc0 then some 2
  else if status < 0xe0 then some 1
  else if status < 0xf0 then some 2
  else if status = 0xf1 ∨ status = 0xf3 then some 1
  else if status = 0xf2 then some 2
  else if [0xf6, 0xf8, 0xfa, 0xfb, 0xfc, 0xfe].contains status then some 0
  else none

def channelMessage (status : Nat) (data : List Nat) : Message :=
  let channel := status % 16
  match status / 16, data with
  | 0x8, pitch :: _ => .noteOff channel pitch
  | 0x9, pitch :: velocity :: _ => .noteOn channel pitch velocity
  | 0xb, _ => .expression
  | 0xc, number :: _ => .program channel number
  | 0xe, _ => .expression
  | _, _ => .other

/-- A message that is no meta event, after its status byte and the data bytes already read. -/
def plainMessage (status : Nat) (first : List Nat) : Decoder Message := do
  if status = 0xf0 ∨ status = 0xf7 then
    let _ ← block
    return .other
  else
    match dataLength status with
    | none => refuse
    | some length =>
      if length < first.length then refuse
      else
        let more ← bytes (length - first.length)
        return channelMessage status ((first ++ more).map (min 127))

/-- An event, and the status byte that stands where one is left out. An unknown meta event
loses its delta. -/
def event (running : Option Nat) : Decoder (Event × Option Nat) := do
  let delta ← variableLength
  let status ← byte
  if status = 0xff then
    let type ← byte
    match ← metaMessage type (← block) with
    | some message => return (⟨delta, message⟩, running)
    | none => return (⟨0, .other⟩, running)
  else if status < 0x80 then
    match running with
    | none => refuse
    | some status' => return (⟨delta, ← plainMessage status' [status]⟩, running)
  else return (⟨delta, ← plainMessage status []⟩, some status)

/-- Events until one ends exactly at a position. Each takes at least one byte, so the bytes
left bound their number. -/
def eventsUntil (stop : Nat) (running : Option Nat) (read : List Event) :
    Nat → Decoder (List Event)
  | 0 => refuse
  | fuel + 1 => do
    if (← get).position = stop then return read.reverse
    else
      let (e, running) ← event running
      eventsUntil stop running (e :: read) fuel

def trackName : List Nat := "MTrk".toList.map Char.toNat

def track : Decoder (List Event) := do
  let (name, size) ← chunkHeader
  if name ≠ trackName then refuse
  else
    let c ← get
    eventsUntil (c.position + size) none [] (c.rest.length + 1)

def tracks : Nat → Decoder (List (List Event))
  | 0 => pure []
  | n + 1 => do
    let t ← track
    return t :: (← tracks n)

def headerName : List Nat := "MThd".toList.map Char.toNat

def file : Decoder File := do
  let (name, size) ← chunkHeader
  if name ≠ headerName then refuse
  else
    match ← upTo size with
    | _ :: _ :: n₁ :: n₀ :: d₁ :: d₀ :: _ =>
      return ⟨signed 16 (bigEndian [d₁, d₀]), ← tracks (signed 16 (bigEndian [n₁, n₀])).toNat⟩
    | _ => refuse

end Decoder

/-- The format number in the header of a file, read by itself. -/
def formatNumber (data : List UInt8) : Result Nat :=
  if data.length < 14 then .error (.refusedImport .tooSmall)
  else if (data.take 4).map UInt8.toNat ≠ Decoder.headerName then
    .error (.refusedImport .noHeader)
  else .ok (Decoder.bigEndian (((data.drop 8).take 2).map UInt8.toNat))

def File.decode (data : List UInt8) : Result File := do
  return (← Decoder.file ⟨data, 0⟩).1

end Midi
end PatternLoom
