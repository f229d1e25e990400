import PatternLoom.Catalog.Support

namespace PatternLoom.Catalog.PolyrhythmGrid

/-- Speeds each layer so that it plays as many hits as its cycle says where the pattern has
four. -/
def adjust (params : Params) (_ : String) : Result Adjustments := do
  let a ← Value.toNumber 3 (params.get? "cycle_a")
  let b ← Value.toNumber 5 (params.get? "cycle_b")
  return {
    rotate := rotates params false
    levels := [
      ("cycle-a", { fast := some (Decimal.roundTo 3 (a / 4)) }),
      ("cycle-b", { fast := some (Decimal.roundTo 3 (b / 4)) })] }

def layers : List Layer := [
  { id := "cycle-a", kind := .drums, levels := { gain := some 0.85 },
    patterns := patterns [("bd*4", 2), ("bd bd ~ bd", 1)] },
  { id := "cycle-b", kind := .drums, levels := { gain := some 0.55 },
    patterns := patterns [("cp*4", 2), ("cp ~ cp ~", 1)] }]

def phases : List Phase := [
  { id := "grid", layers := ["cycle-a", "cycle-b"], share := some (0, 1) }]

def rules : RuleSet where
  layers := layers
  phases := phases
  stretch := false
  rotate := false
  ids_nodup := by decide

def template : Template where
  id := "polyrhythm-grid"
  label := "Polyrhythm Grid"
  description := "Interlocked cycles with metric contrast."
  bpm := 120
  bars := 8
  defaults := [("cycle_a", .text "3"), ("cycle_b", .text "5"), ("rotate", .bool false)]
  schema := [
    { key := "cycle_a", kind := .select, options := ["3", "4", "5"] },
    { key := "cycle_b", kind := .select, options := ["5", "7", "9"] },
    rotateSpec]
  rules := rules
  adjust := adjust

end PatternLoom.Catalog.PolyrhythmGrid
