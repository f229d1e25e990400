import PatternLoom.Piece
import PatternLoom.Tempo

/-! Arrangements: five sections of one template in sequence, each with a share of the bars
and an energy that rises to the middle and falls again. -/

namespace PatternLoom

structure Blueprint where
  key : String
  name : String
  sections : List (String × Binary64)

def Blueprint.weights (b : Blueprint) : List Binary64 := b.sections.map (·.2)

def blueprints : List Blueprint := [
  ⟨"arc", "Arc",
    [("Intro", 0.16), ("Lift", 0.2), ("Peak", 0.28), ("Break", 0.2), ("Outro", 0.16)]⟩,
  ⟨"club", "Club",
    [("Intro", 0.2), ("Groove", 0.26), ("Break", 0.14), ("Drop", 0.26), ("Outro", 0.14)]⟩,
  ⟨"cinematic", "Cinematic",
    [("Opening", 0.24), ("Theme", 0.2), ("Pulse", 0.2), ("Surge", 0.2), ("Dissolve", 0.16)]⟩]

/-- The lengths by name, in bars. -/
def lengths : List (String × Nat) := [("short", 32), ("medium", 64), ("long", 96), ("xl", 128)]

def blueprint (style : String) : Result Blueprint :=
  match blueprints.find? (·.key = style) with
  | some b => .ok b
  | none => .error (.unknownStyle style)

def lengthBars (length : String) : Result Nat :=
  match lengths.lookup length with
  | some bars => .ok bars
  | none => .error (.unknownLength length)

def energies : List Binary64 := [0.55, 0.75, 1, 0.7, 0.5]
def defaultEnergy : Binary64 := 0.8
def switchEnergy : Binary64 := 0.85
def leastSectionBars : Int := 4

def sectionEnergy (index : Int) : Binary64 :=
  if index < 0 then defaultEnergy else energies.getD index.toNat defaultEnergy

/-- One bar less for the first of the largest shares. -/
def trimLargest (shares : List Int) : List Int :=
  match shares with
  | [] => []
  | x :: xs =>
    let largest := xs.foldl max x
    shares.set (shares.idxOf largest) (largest - 1)

/-- `trimLargest` as often as there are bars too many. -/
def trimShares (shares : List Int) : Nat → List Int
  | 0 => shares
  | excess + 1 => trimShares (trimLargest shares) excess

/-- The bars that are left go to the last share. -/
def topUp (shares : List Int) (missing : Int) : List Int :=
  match shares.getLast? with
  | none => []
  | some last => shares.dropLast ++ [last + missing]

/-- Shares in proportion to the weights, each rounded and none below the minimum, before
their sum is made to fit. -/
def roundedShares (total : Int) (weights : List Binary64) (minimum : Int) :
    Result (List Int) :=
  weights.mapM fun w => do
    return max minimum (← ((← Binary64.ofInt total) * w).roundHalfUp)

def allocateBars (total : Int) (weights : List Binary64) (minimum : Int) :
    Result (List Int) := do
  if weights.isEmpty then throw .noSections
  if total < minimum * weights.length then throw (.tooFewBars total weights.length minimum)
  let shares ← roundedShares total weights minimum
  let excess := shares.foldl (· + ·) 0 - total
  if 0 < excess then return trimShares shares excess.toNat
  else return topUp shares (-excess)

/-- Parameters at an energy: numbers move towards their lower bound, and switches turn on
above a threshold. -/
def modulate (params : Params) (energy : Binary64) : List ParamSpec → Result Params
  | [] => .ok params
  | spec :: schema => do
    let current := (params.get? spec.key).getD .null
    let params ← match spec.kind with
      | .number => do
        match ← current.number? with
        | some x =>
          let scaled := Decimal.roundTo 4 (spec.low + (x - spec.low) * energy)
          pure (params.put spec.key (.real (spec.clamp scaled)))
        | none => pure params
      | .boolean => pure (params.put spec.key (.bool (switchEnergy < energy || current.isTrue)))
      | .select => pure params
    modulate params energy schema

def focusPhaseIndex (sectionIndex sections phases : Int) : Result Int :=
  if phases ≤ 1 ∨ sections ≤ 1 then .ok 0
  else do (← Binary64.ofQuotient (sectionIndex * (phases - 1)) (sections - 1)).roundHalfUp

/-- The phase made to cover the whole piece. -/
def Phase.widened (phase : Phase) : Phase := { phase with bars := none, share := some (0, 1) }

def RuleSet.phaseAt (rules : RuleSet) (index : Int) : Result Phase :=
  match nth rules.phases index with
  | some phase => .ok phase
  | none => .error .noSuchPosition

def RuleSet.focusedOn (rules : RuleSet) (phase : Phase) : RuleSet :=
  { rules with phases := [phase.widened] }

structure ArrangedSection where
  label : String
  bars : Int
  code : String
  energy : Binary64
  focus : Option String

structure Arrangement where
  templateId : String
  code : String
  bars : Int
  sections : List ArrangedSection
  title : String

def sectionSeed (seed : String) (index : Nat) : String := seed ++ "-" ++ toString index

/-- One section of an arrangement with the given count of sections. -/
def Template.arrangedSection (t : Template) (seed : String) (bpm : Binary64) (params : Params)
    (focused : Bool) (sections : Nat) (index : Nat) (label : String) (bars : Int) :
    Result ArrangedSection := do
  let energy := sectionEnergy index
  let params ← modulate params energy t.schema
  let focus ← if focused && !t.rules.phases.isEmpty then do
      let phase ← t.rules.phaseAt (← focusPhaseIndex index sections t.rules.phases.length)
      pure (some phase)
    else pure none
  let code ← t.program bpm (← Binary64.ofInt bars) params (sectionSeed seed index)
    (focus.map t.rules.focusedOn)
  return ⟨label, bars, Tempo.stripLeading code, energy, focus.map Phase.id⟩

def Template.arrangedSections (t : Template) (seed : String) (bpm : Binary64) (params : Params)
    (focused : Bool) (sections : Nat) (index : Nat) :
    List (String × Int) → Result (List ArrangedSection)
  | [] => .ok []
  | (label, bars) :: plan => do
    let arranged ← t.arrangedSection seed bpm params focused sections index label bars
    return arranged :: (← t.arrangedSections seed bpm params focused sections (index + 1) plan)

def indent (width : Nat) (text : String) : String :=
  let margin := List.replicate width ' '
  String.ofList (margin ++ text.toList.flatMap fun c => if c = '\n' then '\n' :: margin else [c])

/-- The sections in sequence under one tempo statement. -/
def arrangedProgram (bpm : Binary64) (sections : List ArrangedSection) : String :=
  let expressions := sections.map fun s =>
    if s.code.isEmpty then "silence" else "(" ++ s.code ++ ")"
  tempoHeader bpm ++ "\ncat(\n" ++ indent 2 (",\n".intercalate expressions) ++ "\n)"

/-- The arrangement of a template, from its default parameters where none are given. -/
def Template.arrange (t : Template) (seed : String) (bpm : Binary64) (style length : String)
    (params : Option Params) (focused : Bool) : Result Arrangement := do
  let blueprint ← blueprint style
  let total ← lengthBars length
  let plan ← allocateBars total blueprint.weights leastSectionBars
  let sections ← t.arrangedSections seed bpm (params.getD t.defaults) focused plan.length 0
    ((blueprint.sections.map (·.1)).zip plan)
  return {
    templateId := t.id
    code := arrangedProgram bpm sections
    bars := total
    sections := sections
    title := blueprint.name ++ " " ++ toString total ++ "b" }

/-- An arrangement as a piece that records how it was made. -/
def Arrangement.piece (a : Arrangement) (t : Template) (seed : String) (bpm : Binary64)
    (params : Params) (style length : String) : Piece :=
  let recorded := ((params.put "mode" (.text "long-form")).put "style" (.text style)).put
    "length" (.text length)
  ⟨t.label ++ " " ++ a.title, t.id, bpm, a.bars, seed, recorded, a.code⟩

end PatternLoom
