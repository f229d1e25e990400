import PatternLoom.Timeline

/-! The program text of a rule set: a tempo statement and one block for each segment, a
stack of the layers that play in it. -/

namespace PatternLoom

def defaultGain : Binary64 := 0.7
def gainStep : Binary64 := 0.05
def slowStep : Binary64 := 0.25
def fastStep : Binary64 := 0.02

/-- Cycles a second of a tempo with two beats to the cycle, to three places. -/
def cyclesText (bpm : Binary64) : String := Decimal.fixed 3 (bpm / 120)

def tempoHeader (bpm : Binary64) : String := "setcps(" ++ cyclesText bpm ++ ");"

/-- A call with one number, rounded to a grid. -/
def levelCall (name : String) (step x : Binary64) : Result String := do
  return "." ++ name ++ "(" ++ Decimal.compact (← x.onGrid step) ++ ")"

def optionalCall (name : String) (step : Binary64) : Option Binary64 → Result String
  | none => .ok ""
  | some x => levelCall name step x

/-- The source of sound of a layer that plays the pattern. -/
def Layer.source (layer : Layer) (pattern : String) : String :=
  match layer.instrument with
  | none => "s(" ++ literal pattern ++ ")"
  | some instrument => "note(" ++ literal pattern ++ ").s(" ++ literal instrument ++ ")"

/-- The expression of a layer: its pattern, gain, speed and swing. -/
def Layer.expression (layer : Layer) (pattern : String) (levels : Levels)
    (adjustments : Adjustments) : Result String := do
  let gain := match levels.gain with
    | some g => if g.isFinite then g else defaultGain
    | none => defaultGain
  let gainCall ← levelCall "gain" gainStep gain
  let slowCall ← optionalCall "slow" slowStep levels.slow
  let fastCall ← optionalCall "fast" fastStep levels.fast
  let swingCall ← match adjustments.groove with
    | some groove => if groove.appliesTo layer then groove.call else pure ""
    | none => pure ""
  return layer.source pattern ++ gainCall ++ slowCall ++ fastCall ++ swingCall

/-- The pattern of each layer for the whole piece, drawn in the order of the layers. -/
def homePatterns (s : Stream) : List Layer → Table String
  | [] => []
  | layer :: layers =>
    let (pattern, s) := layer.pickPattern s
    (layer.id, pattern) :: homePatterns s layers

def patternIn (rotate : Bool) (home : Table String) (layer : Layer) (index : Nat) : String :=
  let rotated := layer.patterns[index % layer.patterns.length]?
  match rotate, rotated with
  | true, some option => option.value
  | _, _ => (home.get? layer.id).getD PatternLoom.rest

/-- The layers of a segment that the rule set has. -/
def RuleSet.members (rules : RuleSet) (segment : Segment) : List Layer :=
  segment.layers.filterMap rules.layer?

/-- The stack of a segment, or silence if nothing plays, over its bars. -/
def segmentExpression (members : List String) (span : Int) : String :=
  let slow := ".slow(" ++ toString span ++ ")"
  if members.isEmpty then "silence" ++ slow
  else "stack(\n" ++ ",\n".intercalate (members.map ("    " ++ ·)) ++ "\n  )" ++ slow

def segmentComment (number : Nat) (segment : Segment) : String :=
  "// " ++ toString number ++ (if segment.isGap then ". GAP " else ". PHASE " ++ segment.id ++ " ") ++
    toString segment.first ++ "-" ++ toString segment.last

def segmentBlock (rules : RuleSet) (home : Table String) (rotate : Bool)
    (adjustments : Adjustments) (number : Nat) (segment : Segment) : Result String := do
  let members ← (rules.members segment).mapM fun layer =>
    layer.expression (patternIn rotate home layer segment.index)
      (resolveLevels layer segment.id segment.levels adjustments) adjustments
  return segmentComment number segment ++ "\n  " ++ segmentExpression members segment.span

/-- Blocks numbered from `number` on. -/
def segmentBlocks (rules : RuleSet) (home : Table String) (rotate : Bool)
    (adjustments : Adjustments) (number : Nat) : List Segment → Result (List String)
  | [] => .ok []
  | segment :: segments => do
    let block ← segmentBlock rules home rotate adjustments number segment
    return block :: (← segmentBlocks rules home rotate adjustments (number + 1) segments)

def sequence (blocks : List String) : String :=
  "cat(\n  " ++ ",\n  ".intercalate blocks ++ "\n)"

/-- The program of a rule set at a tempo above zero. -/
def RuleSet.program (rules : RuleSet) (bpm bars : Binary64) (seed : String)
    (adjustments : Adjustments) : Result String := do
  if !bpm.isFinite || bpm ≤ 0 then throw (.tempoNotPositive bpm)
  let segments ← rules.segments (← safeBars bars)
  let rotate := adjustments.rotate.getD rules.rotate
  let home := homePatterns (.ofSeed seed) rules.layers
  let blocks ← segmentBlocks rules home rotate adjustments 1 segments
  return tempoHeader bpm ++ "\n" ++ sequence blocks

end PatternLoom
