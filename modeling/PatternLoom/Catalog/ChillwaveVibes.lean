import PatternLoom.Catalog.Support

namespace PatternLoom.Catalog.ChillwaveVibes

/-- More haze pulls the drums back and stretches the chords and hiss. -/
def adjust (params : Params) (_ : String) : Result Adjustments := do
  let haze := unitScale (← clamped params "haze" 0.2 1 0.75)
  return {
    rotate := rotates params true
    levels := [
      ("kick", gain (0.62 - haze * 0.2)),
      ("snare", gain (0.5 - haze * 0.15)),
      ("hats", gain (0.3 - haze * 0.1)),
      ("chords", slowed (0.14 + haze * 0.12) (1.5 + haze * 1.5)),
      ("lead", gain (0.06 + haze * 0.08)),
      ("hiss", slowed (0.09 + haze * 0.09) (2 + haze * 4))] }

def layers : List Layer := [
  { id := "kick", kind := .drums, levels := { gain := some 0.55 },
    patterns := patterns [("bd ~ ~ ~ bd ~ ~ ~", 3), ("bd ~ bd ~ ~ ~ bd ~", 1)] },
  { id := "snare", kind := .drums, levels := { gain := some 0.4 },
    patterns := patterns [("~ sd ~ sd", 3), ("~ sd [~ sd] sd", 1)] },
  { id := "hats", kind := .drums, levels := { gain := some 0.22 },
    patterns := patterns [("hh*8", 2), ("~ hh ~ hh ~ ~ hh ~", 1)] },
  { id := "chords", kind := .melodic, levels := { gain := some 0.2, slow := some 2 }, instrument := some "sawtooth",
    patterns := patterns [("c4 eb4 g4 bb4", 2), ("ab3 c4 eb4 g4", 1)] },
  { id := "lead", kind := .melodic, levels := { gain := some 0.1 }, instrument := some "triangle",
    patterns := patterns [("~ g5 ~ ~ ~ eb5 ~ ~", 2), ("~ ~ bb5 ~ ~ ~ g5 ~", 1)] },
  { id := "hiss", kind := .texture, levels := { gain := some 0.14, slow := some 4 },
    patterns := patterns [("hiss:4*2", 2), ("hiss:4", 1)] }]

def phases : List Phase := [
  { id := "bed", layers := ["chords", "hiss"], share := some (0, 0.25) },
  { id := "beat", share := some (0.25, 0.6),
    layers := ["kick", "snare", "hats", "chords", "hiss"] },
  { id := "lift", share := some (0.6, 1),
    layers := ["kick", "snare", "hats", "chords", "lead", "hiss"] }]

def rules : RuleSet where
  layers := layers
  phases := phases
  stretch := true
  rotate := true
  ids_nodup := by decide

def template : Template where
  id := "chillwave-vibes"
  label := "Chillwave Vibes"
  description := "Laid-back synths, soft drums, nostalgic haze."
  bpm := 96
  bars := 64
  defaults := [("rotate", .bool true), ("haze", .real 0.75)]
  schema := [rotateSpec, amountSpec "haze"]
  rules := rules
  adjust := adjust

end PatternLoom.Catalog.ChillwaveVibes
