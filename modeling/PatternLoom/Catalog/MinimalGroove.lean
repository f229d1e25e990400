import PatternLoom.Catalog.Support

namespace PatternLoom.Catalog.MinimalGroove

/-- More space scales every part down and lets the texture breathe. -/
def adjust (params : Params) (_ : String) : Result Adjustments := do
  let space ← clamped params "space" 0.2 1 0.8
  let occupancy := 1 - unitScale space
  let scale := 0.45 + occupancy * 0.55
  return {
    rotate := rotates params true
    levels := [
      ("kick", gain (0.65 * scale)),
      ("click", gain (0.28 * scale)),
      ("hat", gain (0.18 * scale)),
      ("sub", gain (0.22 * scale)),
      ("texture", slowed (0.14 * (0.65 + space * 0.35)) (2 + space * 4))] }

def layers : List Layer := [
  { id := "kick", kind := .drums, levels := { gain := some 0.65 },
    patterns := patterns [("bd ~ ~ ~ bd ~ ~ ~", 3), ("bd ~ ~ bd ~ ~ ~ ~", 1)] },
  { id := "click", kind := .drums, levels := { gain := some 0.28 },
    patterns := patterns [("~ ~ cp ~ ~ ~ cp ~", 2), ("~ cp ~ ~ ~ ~ cp ~", 1)] },
  { id := "hat", kind := .drums, levels := { gain := some 0.18 },
    patterns := patterns [("~ hh ~ ~ ~ hh ~ ~", 3), ("~ ~ hh ~ ~ ~ hh ~", 1)] },
  { id := "sub", kind := .melodic, levels := { gain := some 0.22 }, instrument := some "sine",
    patterns := patterns [("c2 ~ ~ ~ c2 ~ ~ ~", 2), ("c2 ~ g1 ~ c2 ~ ~ ~", 1)] },
  { id := "texture", kind := .texture, levels := { gain := some 0.14, slow := some 4 },
    patterns := patterns [("hiss:4*2", 2), ("hiss:4", 1)] }]

def phases : List Phase := [
  { id := "intro", layers := ["kick", "texture"], share := some (0, 0.22) },
  { id := "groove", layers := ["kick", "click", "texture"], share := some (0.22, 0.55) },
  { id := "full", layers := ["kick", "click", "hat", "sub", "texture"], share := some (0.55, 1) }]

def rules : RuleSet where
  layers := layers
  phases := phases
  stretch := true
  rotate := true
  ids_nodup := by decide

def template : Template where
  id := "minimal-groove"
  label := "Minimal Groove"
  description := "Low-key, minimal pulse with lots of space."
  bpm := 112
  bars := 64
  defaults := [("rotate", .bool true), ("space", .real 0.8)]
  schema := [rotateSpec, amountSpec "space"]
  rules := rules
  adjust := adjust

end PatternLoom.Catalog.MinimalGroove
