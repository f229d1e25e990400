import PatternLoom.Catalog.Support

namespace PatternLoom.Catalog.OldSchoolHipHop

/-- Grit lifts every part. -/
def adjust (params : Params) (_ : String) : Result Adjustments := do
  let grit ← clamped params "grit" 0 1 0.55
  return {
    rotate := rotates params true
    levels := [
      ("kick", gain (0.6 + grit * 0.32)),
      ("snare", gain (0.42 + grit * 0.34)),
      ("hats", gain (0.18 + grit * 0.24)),
      ("bass", gain (0.2 + grit * 0.3)),
      ("texture", gain (0.06 + grit * 0.18))]
    phaseLevels := [
      ("core", [("hats", gain (0.12 + grit * 0.2))]),
      ("full", [("texture", gain (0.1 + grit * 0.18))])] }

def layers : List Layer := [
  { id := "snare", kind := .drums, levels := { gain := some 0.7 },
    patterns := patterns [("~ sd ~ sd", 4), ("[~ sd] sd ~ sd", 1)] },
  { id := "kick", kind := .drums, levels := { gain := some 0.85 },
    patterns := patterns [("bd ~ ~ ~ bd ~ ~ ~", 2), ("bd ~ bd ~ ~ ~ bd ~", 2),
      ("bd ~ ~ bd ~ ~ bd ~", 1)] },
  { id := "hats", kind := .drums, levels := { gain := some 0.35 },
    patterns := patterns [("hh*8", 2), ("hh*16", 1)] },
  { id := "bass", kind := .melodic, levels := { gain := some 0.35 }, instrument := some "sine",
    patterns := patterns [("c2 ~ c2 ~ eb2 ~ c2 ~", 2), ("c2 ~ ~ c2 g1 ~ c2 ~", 1)] },
  { id := "texture", kind := .texture, levels := { gain := some 0.16, slow := some 4 },
    patterns := patterns [("hiss:4*2", 2), ("hiss:4", 1)] }]

def phases : List Phase := [
  { id := "core", layers := ["kick", "snare", "hats"], share := some (0, 0.2) },
  { id := "bass", layers := ["kick", "snare", "hats", "bass"], share := some (0.2, 0.35) },
  { id := "full", layers := ["kick", "snare", "hats", "bass", "texture"], share := some (0.35, 1) }]

def rules : RuleSet where
  layers := layers
  phases := phases
  stretch := true
  rotate := true
  ids_nodup := by decide

def template : Template where
  id := "old-school-hiphop"
  label := "Old School Hip Hop"
  description := "Classic boom bap with hats and light texture."
  bpm := 88
  bars := 64
  defaults := [("grit", .real 0.55), ("rotate", .bool true)]
  schema := [unitSpec "grit", rotateSpec]
  rules := rules
  adjust := adjust

end PatternLoom.Catalog.OldSchoolHipHop
