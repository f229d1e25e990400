import PatternLoom.Catalog.Support

namespace PatternLoom.Catalog.Ambient

/-- Pad-led balance: `air` lifts pad and texture, `motion` the bass and sparkle. -/
def adjust (params : Params) (_ : String) : Result Adjustments := do
  let air ← clamped params "air" 0.2 1 0.7
  let motion ← clamped params "motion" 0 1 0.4
  return {
    rotate := rotates params true
    levels := [
      ("pad", gain (0.18 + air * 0.12)),
      ("bass", gain (0.04 + motion * 0.09)),
      ("texture", gain (0.04 + air * 0.08)),
      ("sparkle", gain (0.01 + air * 0.03 + motion * 0.03))]
    phaseLevels := [
      ("09-bass-soften", [("bass", gain (0.02 + motion * 0.05))]),
      ("12-pad-only-outro", [("pad", gain (0.14 + air * 0.07))])] }

def layers : List Layer := [
  { id := "pad", kind := .melodic, levels := { gain := some 0.24 }, instrument := some "sawtooth",
    patterns := patterns [("c4 eb4 g4 bb4", 4), ("ab3 c4 eb4 g4", 3), ("f4 ab4 c5 eb5", 2),
      ("bb3 d4 f4 a4", 1)] },
  { id := "bass", kind := .melodic, levels := { gain := some 0.12 }, instrument := some "sine",
    patterns := patterns [("c2 ~ ~ ~", 4), ("c2 ~ g1 ~", 2), ("f2 ~ ~ ~", 1)] },
  { id := "texture", kind := .texture, levels := { gain := some 0.11, slow := some 4 },
    patterns := patterns [("hiss:4*2", 3), ("hiss:4", 2), ("hiss", 1)] },
  { id := "sparkle", kind := .melodic, levels := { gain := some 0.06 }, instrument := some "triangle",
    patterns := patterns [("~ c6 ~ ~ ~ g5 ~ ~", 2), ("~ ~ eb6 ~ ~ ~ bb5 ~", 2),
      ("~ ~ ~ g5 ~ ~ ~ eb6", 1)] }]

def phases : List Phase := [
  { id := "01-pad-hold", layers := ["pad"], bars := some (1, 8) },
  { id := "02-pad-shift", layers := ["pad"], bars := some (9, 16) },
  { id := "03-bass-under", layers := ["pad", "bass"], bars := some (17, 24) },
  { id := "04-texture-in", layers := ["pad", "bass", "texture"], bars := some (25, 32) },
  { id := "05-sparkle-in", layers := ["pad", "bass", "texture", "sparkle"], bars := some (33, 40) },
  { id := "06-drift-hold", layers := ["pad", "bass", "texture", "sparkle"], bars := some (41, 46) },
  { id := "07-sparkle-out", layers := ["pad", "bass", "texture"], bars := some (47, 50) },
  { id := "08-sparkle-back", bars := some (51, 54),
    layers := ["pad", "bass", "texture", "sparkle"] },
  { id := "09-bass-soften", bars := some (55, 58),
    layers := ["pad", "bass", "texture", "sparkle"] },
  { id := "10-sparkle-outro-off", layers := ["pad", "bass", "texture"], bars := some (59, 60) },
  { id := "11-texture-outro-off", layers := ["pad", "bass"], bars := some (61, 62) },
  { id := "12-pad-only-outro", layers := ["pad"], bars := some (63, 64) }]

def rules : RuleSet where
  layers := layers
  phases := phases
  stretch := true
  rotate := true
  ids_nodup := by decide

def template : Template where
  id := "ambient"
  label := "Ambient"
  description := "Pad-led drift, slow harmonic shifts, sparse sparkle, and a pad-only fade."
  bpm := 74
  bars := 64
  defaults := [("rotate", .bool true), ("air", .real 0.7), ("motion", .real 0.4)]
  schema := [rotateSpec, amountSpec "air", unitSpec "motion"]
  rules := rules
  adjust := adjust

end PatternLoom.Catalog.Ambient
