import PatternLoom.Catalog.Support

namespace PatternLoom.Catalog.AmbientDrift

/-- Airier settings slow everything down and push the hits further back. -/
def adjust (params : Params) (_ : String) : Result Adjustments := do
  let airy := unitScale (← clamped params "airy" 0.2 1 0.75)
  return {
    rotate := rotates params true
    levels := [
      ("pad", slowed (0.12 + airy * 0.16) (3 + airy * 3)),
      ("sparkle", slowed (0.04 + airy * 0.12) (1.5 + airy * 2)),
      ("soft-hits", gain (0.1 - airy * 0.06)),
      ("air", slowed (0.08 + airy * 0.14) (3 + airy * 3))] }

def layers : List Layer := [
  { id := "pad", kind := .melodic, levels := { gain := some 0.22, slow := some 4 }, instrument := some "sawtooth",
    patterns := patterns [("c4 eb4 g4 bb4", 2), ("f4 g4 c5 eb5", 1)] },
  { id := "sparkle", kind := .melodic, levels := { gain := some 0.1, slow := some 2 }, instrument := some "triangle",
    patterns := patterns [("~ c6 ~ ~ ~ g5 ~ ~", 2), ("~ ~ eb6 ~ ~ ~ bb5 ~", 1)] },
  { id := "soft-hits", kind := .drums, levels := { gain := some 0.08 },
    patterns := patterns [("~ ~ ~ ~ cp ~ ~ ~", 2), ("~ ~ ~ ~ ~ ~ cp ~", 1)] },
  { id := "air", kind := .texture, levels := { gain := some 0.16, slow := some 4 },
    patterns := patterns [("hiss:4*2", 2), ("hiss:4", 1)] }]

def phases : List Phase := [
  { id := "float", layers := ["pad", "air"], share := some (0, 0.35) },
  { id := "bloom", layers := ["pad", "sparkle", "air"], share := some (0.35, 0.7) },
  { id := "drift", layers := ["pad", "sparkle", "soft-hits", "air"], share := some (0.7, 1) }]

def rules : RuleSet where
  layers := layers
  phases := phases
  stretch := true
  rotate := true
  ids_nodup := by decide

def template : Template where
  id := "ambient-drift"
  label := "Ambient Drift"
  description := "Ethereal soundscapes for meditation, slow movement, minimal rhythm."
  bpm := 80
  bars := 64
  defaults := [("rotate", .bool true), ("airy", .real 0.75)]
  schema := [rotateSpec, amountSpec "airy"]
  rules := rules
  adjust := adjust

end PatternLoom.Catalog.AmbientDrift
