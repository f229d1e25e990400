import PatternLoom.Midi.Grid
import PatternLoom.Midi.Sound
import PatternLoom.Layer

/-! The step pattern of a track: one cell for each step of the grid, with the notes that
begin there, and runs of equal cells written once with their length. -/

namespace PatternLoom
namespace Midi

/-- A token and how often it is repeated. -/
def runText (token : String) (length : Nat) : String :=
  if 1 < length then token ++ "!" ++ toString length else token

/-- Runs from a current token that has come `length` times. -/
def compressFrom (token : String) (length : Nat) : List String → List String
  | [] => [runText token length]
  | next :: tokens =>
    if next = token then compressFrom token (length + 1) tokens
    else runText token length :: compressFrom next 1 tokens

/-- Runs of equal tokens as one token each, and a rest for no tokens. -/
def compress : List String → List String
  | [] => [rest]
  | token :: tokens => compressFrom token 1 tokens

def cellText : List String → String
  | [] => rest
  | [one] => one
  | members => "[" ++ " ".intercalate members ++ "]"

def insertMember {α : Type} (lt : α → α → Bool) (x : α) : List α → List α
  | [] => [x]
  | y :: ys =>
    if lt x y then x :: y :: ys else if lt y x then y :: insertMember lt x ys else y :: ys

def distinctSorted {α : Type} (lt : α → α → Bool) (xs : List α) : List α :=
  xs.foldr (insertMember lt) []

def cellMembers (role : Role) (sharps : Bool) (pitches : List Int) : List String :=
  match role with
  | .drum => distinctSorted (fun a b => decide (a < b)) (pitches.map fun p => (drumSample p).1)
  | .melodic => (distinctSorted (fun a b => decide (a < b)) pitches).map (noteName · sharps)

/-- The ceiling of a quantity that is rounded to six places if it is not whole. -/
def wholeSteps : Quantity → Result Int
  | .whole n => .ok n
  | .real x => (Decimal.roundTo 6 x).ceil

/-- The steps in a number of bars, at least one. -/
def totalSteps (bars : Int) (beatsPerBar division : Quantity) : Result Nat := do
  let steps ← wholeSteps (← (← (Quantity.whole bars).mul beatsPerBar).mul division)
  return (max 1 steps).toNat

/-- The step on which a time falls, the nearest one of those there are. -/
def stepIndex (total : Nat) (step start : Binary64) : Result Nat := do
  return (min ((total : Int) - 1) (max 0 (← (← start.quotient step).roundHalfUp))).toNat

def stepPitches (total : Nat) (onsets : List (Nat × Int)) : List (List Int) :=
  (onsets.foldr (fun onset cells => cells.modify onset.1 (onset.2 :: ·))
    (Array.replicate total [])).toList

/-- The cells of a track before runs are compressed. -/
def stepCells (t : BeatTrack) (bars : Int) (beatsPerBar : Quantity) (options : ImportOptions) :
    Result (List String) := do
  let division := options.division.atLeastOne
  let step ← gridStep division
  let total ← totalSteps bars beatsPerBar division
  let onsets ← t.notes.mapM fun n => do return (← stepIndex total step n.start, n.pitch)
  return (stepPitches total onsets).map fun pitches =>
    cellText (cellMembers t.role options.preferSharps pitches)

def stepTokens (t : BeatTrack) (bars : Int) (beatsPerBar : Quantity) (options : ImportOptions) :
    Result (List String) := do
  return compress (← stepCells t bars beatsPerBar options)

end Midi
end PatternLoom
