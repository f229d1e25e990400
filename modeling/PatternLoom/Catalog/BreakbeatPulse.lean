import PatternLoom.Catalog.Support

namespace PatternLoom.Catalog.BreakbeatPulse

/-- Edge raises the whole kit and adds a touch of swing to the hats. Rotation is off unless
asked for, so each layer keeps the chop it was dealt for the whole piece. -/
def adjust (params : Params) (_ : String) : Result Adjustments := do
  let edge := unitScale (← clamped params "edge" 0.2 1 0.7)
  return {
    rotate := rotates params false
    groove := some ⟨Decimal.roundTo 3 (0.08 + edge * 0.08), 4, some ["hats"]⟩
    levels := [
      ("kick", gain (0.62 + edge * 0.32)),
      ("snare", gain (0.45 + edge * 0.35)),
      ("ghost-snare", gain (0.05 + edge * 0.08)),
      ("hats", gain (0.2 + edge * 0.18)),
      ("perc", gain (0.12 + edge * 0.2))]
    phaseLevels := [
      ("intro", [("snare", gain (0.42 + edge * 0.22))]),
      ("drive", [("hats", gain (0.16 + edge * 0.15))]),
      ("full", [
        ("ghost-snare", gain (0.06 + edge * 0.12)),
        ("perc", gain (0.16 + edge * 0.24))])] }

def layers : List Layer := [
  { id := "kick", kind := .drums, levels := { gain := some 0.9 },
    patterns := patterns [("bd*2 [~ bd] bd", 3), ("bd [~ bd] ~ bd", 1),
      ("bd ~ [~ bd] bd ~ ~ bd ~", 1)] },
  { id := "snare", kind := .drums, levels := { gain := some 0.75 },
    patterns := patterns [("~ sd ~ sd", 3), ("~ sd [~ sd] sd", 1),
      ("~ sd ~ [~ sd] ~ sd ~ sd", 1)] },
  { id := "ghost-snare", kind := .drums, levels := { gain := some 0.12 },
    patterns := patterns [("~ ~ sd ~ ~ ~ ~ ~", 3), ("~ sd ~ ~ ~ ~ ~ ~", 1)] },
  { id := "hats", kind := .drums, levels := { gain := some 0.35 },
    patterns := patterns [("hh*8", 3), ("hh*16", 1), ("hh*8 ~ hh*8 ~", 1),
      ("hh*8 [~ oh] hh*8 ~", 1)] },
  { id := "perc", kind := .drums, levels := { gain := some 0.3 },
    patterns := patterns [("~", 2), ("~ perc ~ ~ perc ~ perc ~", 2),
      ("perc ~ ~ perc ~ ~ perc ~", 1), ("perc [~ perc] ~ perc ~ perc [~ perc] ~", 1)] }]

def phases : List Phase := [
  { id := "intro", layers := ["kick", "snare"], bars := some (1, 4) },
  { id := "drive", layers := ["kick", "snare", "hats"], bars := some (5, 8) },
  { id := "full", bars := some (9, 16),
    layers := ["kick", "snare", "ghost-snare", "hats", "perc"] }]

def rules : RuleSet where
  layers := layers
  phases := phases
  stretch := true
  rotate := true
  ids_nodup := by decide

def template : Template where
  id := "breakbeat-pulse"
  label := "Breakbeat Pulse"
  description := "Energetic chopped rhythms with syncopation and fills."
  bpm := 132
  bars := 64
  defaults := [("rotate", .bool false), ("edge", .real 0.7)]
  schema := [rotateSpec, amountSpec "edge"]
  rules := rules
  adjust := adjust

end PatternLoom.Catalog.BreakbeatPulse
