import PatternLoom.Catalog.Support

namespace PatternLoom.Catalog.SwingGroove

/-- Maps the swing ratio from 0.52 to 0.66 onto ride swing and kit balance. -/
def adjust (params : Params) (_ : String) : Result Adjustments := do
  let ratio ← clamped params "swing" 0.52 0.66 0.6
  let swing := (ratio - 0.52) / 0.14
  return {
    rotate := rotates params true
    groove := some ⟨Decimal.roundTo 3 (0.2 + swing * 0.25), 4, some ["ride"]⟩
    levels := [
      ("ride", hastened (0.16 + swing * 0.1) (0.98 + swing * 0.04)),
      ("snare", gain (0.2 + swing * 0.14)),
      ("kick", gain (0.16 + swing * 0.1)),
      ("bass", gain (0.14 + swing * 0.1))]
    phaseLevels := [("full", [("bass", gain (0.18 + swing * 0.1))])] }

def layers : List Layer := [
  { id := "ride", kind := .drums, levels := { gain := some 0.22 },
    patterns := patterns [("hh ~ hh hh ~ hh ~ hh", 2), ("hh*8", 1)] },
  { id := "snare", kind := .drums, levels := { gain := some 0.28 },
    patterns := patterns [("~ ~ sd ~ ~ ~ sd ~", 2), ("~ sd ~ ~ ~ ~ sd ~", 1)] },
  { id := "kick", kind := .drums, levels := { gain := some 0.2 },
    patterns := patterns [("bd ~ ~ ~ ~ ~ ~ ~", 2), ("bd ~ ~ ~ bd ~ ~ ~", 1)] },
  { id := "bass", kind := .melodic, levels := { gain := some 0.18 }, instrument := some "sine",
    patterns := patterns [("c2 d2 eb2 e2", 2), ("c2 ~ eb2 ~ g1 ~ bb1 ~", 1),
      ("c2 ~ g1 ~ c2 ~ bb1 ~", 1)] }]

def phases : List Phase := [
  { id := "kit", layers := ["ride", "kick"], share := some (0, 0.3) },
  { id := "comp", layers := ["ride", "kick", "snare"], share := some (0.3, 0.65) },
  { id := "full", layers := ["ride", "kick", "snare", "bass"], share := some (0.65, 1) }]

def rules : RuleSet where
  layers := layers
  phases := phases
  stretch := true
  rotate := true
  ids_nodup := by decide

def template : Template where
  id := "swing-groove"
  label := "Swing Groove"
  description := "Jazz-inspired swing feel, light kit, walking-ish bass hints."
  bpm := 120
  bars := 64
  defaults := [("rotate", .bool true), ("swing", .real 0.6)]
  schema := [
    rotateSpec,
    { key := "swing", kind := .number, low := 0.52, high := 0.66, step := 0.01 }]
  rules := rules
  adjust := adjust

end PatternLoom.Catalog.SwingGroove
