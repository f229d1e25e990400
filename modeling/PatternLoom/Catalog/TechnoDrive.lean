import PatternLoom.Catalog.Support

namespace PatternLoom.Catalog.TechnoDrive

/-- Intensity lifts the kit, hat energy the hats and their speed. -/
def adjust (params : Params) (_ : String) : Result Adjustments := do
  let intensity ← clamped params "intensity" 0.2 1 0.85
  let hatEnergy ← clamped params "hat_energy" 0.2 1 0.7
  return {
    rotate := rotates params true
    levels := [
      ("kick", gain (0.65 + intensity * 0.3)),
      ("hats", hastened (0.2 + hatEnergy * 0.45) (0.8 + hatEnergy * 0.5)),
      ("clap", gain (0.22 + intensity * 0.4)),
      ("perc", gain (0.12 + intensity * 0.3)),
      ("stab", gain (0.08 + intensity * 0.28))]
    phaseLevels := [
      ("foundation", [("kick", gain (0.5 + intensity * 0.25))]),
      ("groove", [("hats", gain (0.18 + hatEnergy * 0.32))]),
      ("expand", [("stab", gain (0.12 + intensity * 0.22))])] }

def layers : List Layer := [
  { id := "kick", kind := .drums, levels := { gain := some 0.95 },
    patterns := patterns [("bd*4", 3), ("bd bd bd bd", 1)] },
  { id := "hats", kind := .drums, levels := { gain := some 0.45 },
    patterns := patterns [("~ hh ~ hh ~ hh ~ hh", 3), ("hh*8", 1)] },
  { id := "clap", kind := .drums, levels := { gain := some 0.55 },
    patterns := patterns [("~ cp ~ cp", 3), ("~ cp [~ cp] cp", 1)] },
  { id := "perc", kind := .drums, levels := { gain := some 0.32 },
    patterns := patterns [("~ ~ perc ~ ~ perc ~ ~", 2), ("perc ~ ~ perc ~ perc ~ ~", 1)] },
  { id := "stab", kind := .melodic, levels := { gain := some 0.28 }, instrument := some "sawtooth",
    patterns := patterns [("c4 ~ ~ ~ eb4 ~ ~ ~", 2), ("~ g4 ~ ~ ~ bb4 ~ ~", 1)] }]

def phases : List Phase := [
  { id := "foundation", layers := ["kick"], share := some (0, 0.12) },
  { id := "groove", layers := ["kick", "hats", "clap"], share := some (0.12, 0.35) },
  { id := "expand", layers := ["kick", "hats", "clap", "perc", "stab"], share := some (0.35, 1) }]

def rules : RuleSet where
  layers := layers
  phases := phases
  stretch := true
  rotate := true
  ids_nodup := by decide

def template : Template where
  id := "techno-drive"
  label := "Techno Drive"
  description := "High-energy electronic beats with gradual layering."
  bpm := 132
  bars := 64
  defaults := [("intensity", .real 0.85), ("hat_energy", .real 0.7), ("rotate", .bool true)]
  schema := [amountSpec "intensity", amountSpec "hat_energy", rotateSpec]
  rules := rules
  adjust := adjust

end PatternLoom.Catalog.TechnoDrive
