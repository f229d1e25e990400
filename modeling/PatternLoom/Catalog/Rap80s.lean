import PatternLoom.Catalog.Support

namespace PatternLoom.Catalog.Rap80s

def ghostOptions : List String := ["ghost-snare", "ghost-snare-alt"]
def clapOptions : List String := ["clap", "clap-soft"]
def textureOptions : List String := ["texture", "texture-alt"]
def hatFeatureOptions : List String := ["hats-feature", "hats-feature-alt"]

def dualTextureChance : Binary64 := 0.25
def adlibHatChance : Binary64 := 0.45

def swungLayers : List String :=
  ["hats", "hats-feature", "hats-feature-alt", "ghost-snare", "ghost-snare-alt", "adlib-hat"]

/-- Grit lifts the whole kit; swing drives an eighth-note groove on the hats and ghost
notes. The order of the draws is part of what a seed means. -/
def adjust (params : Params) (seed : String) : Result Adjustments := do
  let grit ← clamped params "grit" 0 1 0.6
  let swing ← clamped params "swing" 0 0.3 0.2
  let s := optionalStream seed "rap80s"
  let (ghost, s) ← s.pickOne ghostOptions
  let (clap, s) ← s.pickOne clapOptions
  let (hatFeature, s) ← s.pickOne hatFeatureOptions
  let (texture, s) ← s.pickOne textureOptions
  let (textureDraw, s) := s.next
  let keptTextures := if textureDraw < dualTextureChance then textureOptions else [texture]
  let (adlibDraw, _) := s.next
  let ghosts := muteUnselected ghostOptions [ghost]
  let adlib := if adlibDraw < adlibHatChance then [] else [("adlib-hat", muted)]
  return {
    rotate := rotates params true
    groove := some ⟨Decimal.roundTo 3 (0.14 + swing * 0.4), 8, some swungLayers⟩
    levels := [
      ("kick", gain (0.68 + grit * 0.24)),
      ("snare", gain (0.48 + grit * 0.26)),
      ("hats", gain (0.18 + grit * 0.16)),
      ("hats-feature", gain (0.16 + grit * 0.14)),
      ("hats-feature-alt", gain (0.15 + grit * 0.13)),
      ("bass", gain (0.12 + grit * 0.2)),
      ("ghost-snare", gain (0.04 + grit * 0.04)),
      ("ghost-snare-alt", gain (0.03 + grit * 0.05)),
      ("clap", gain (0.1 + grit * 0.12)),
      ("clap-soft", gain (0.07 + grit * 0.1)),
      ("adlib-hat", gain (0.06 + grit * 0.08)),
      ("texture", gain (0.02 + grit * 0.07)),
      ("texture-alt", gain (0.02 + grit * 0.06))]
    phaseLevels := [
      ("04-bass-b", [("bass", gain (0.14 + grit * 0.18))]),
      ("05-ghost-clap", ghosts ++ muteUnselected clapOptions [clap] ++ adlib),
      ("06-texture-in",
        ghosts ++ muteUnselected hatFeatureOptions [hatFeature] ++
          muteUnselected textureOptions keptTextures ++ adlib ++
          [("bass", gain (0.1 + grit * 0.16))])] }

def layers : List Layer := [
  { id := "kick", kind := .drums, levels := { gain := some 0.86 },
    patterns := patterns [("bd ~ ~ ~ bd ~ ~ ~", 3), ("bd ~ bd ~ ~ ~ bd ~", 3),
      ("bd ~ ~ bd ~ ~ bd ~", 2)] },
  { id := "snare", kind := .drums, levels := { gain := some 0.72 },
    patterns := patterns [("~ sd ~ sd", 5), ("~ sd [~ sd] sd", 1)] },
  { id := "hats", kind := .drums, levels := { gain := some 0.34 },
    patterns := patterns [("hh*8", 1)] },
  { id := "hats-feature", kind := .drums, levels := { gain := some 0.3 },
    patterns := patterns [("~ hh ~ hh ~ hh ~ hh", 1)] },
  { id := "hats-feature-alt", kind := .drums, levels := { gain := some 0.28 },
    patterns := patterns [("~ hh ~ [hh hh] ~ hh ~ hh", 1)] },
  { id := "bass", kind := .melodic, levels := { gain := some 0.3 }, instrument := some "sine",
    patterns := patterns [("c2 ~ c2 ~ eb2 ~ c2 ~", 3), ("c2 ~ ~ c2 g1 ~ c2 ~", 2)] },
  { id := "ghost-snare", kind := .drums, levels := { gain := some 0.08 },
    patterns := patterns [("~ ~ sd ~ ~ ~ ~ ~", 3), ("~ sd ~ ~ ~ ~ ~ ~", 1)] },
  { id := "ghost-snare-alt", kind := .drums, levels := { gain := some 0.08 },
    patterns := patterns [("~ ~ ~ sd ~ ~ ~ ~", 3), ("~ ~ sd ~ ~ ~ ~ ~", 1)] },
  { id := "clap", kind := .drums, levels := { gain := some 0.28 },
    patterns := patterns [("~ cp ~ cp", 1)] },
  { id := "clap-soft", kind := .drums, levels := { gain := some 0.2 },
    patterns := patterns [("~ ~ cp ~ ~ ~ cp ~", 1)] },
  { id := "adlib-hat", kind := .drums, levels := { gain := some 0.16 },
    patterns := patterns [("~ ~ hh ~ ~ ~ ~ hh", 1)] },
  { id := "texture", kind := .texture, levels := { gain := some 0.08, slow := some 4 },
    patterns := patterns [("hiss:4", 2), ("hiss", 1)] },
  { id := "texture-alt", kind := .texture, levels := { gain := some 0.07, slow := some 4 },
    patterns := patterns [("hiss:4*2", 2), ("hiss:8", 1)] }]

def phases : List Phase := [
  { id := "01-kick-snare-anchor", layers := ["kick", "snare"], bars := some (1, 8) },
  { id := "02-hats-in", layers := ["kick", "snare", "hats"], bars := some (9, 16) },
  { id := "03-bass-a", layers := ["kick", "snare", "hats", "bass"], bars := some (17, 24) },
  { id := "04-bass-b", layers := ["kick", "snare", "hats", "bass"], bars := some (25, 32) },
  { id := "05-ghost-clap", bars := some (33, 40),
    layers := ["kick", "snare", "hats", "bass", "ghost-snare", "ghost-snare-alt", "clap",
      "clap-soft", "adlib-hat"] },
  { id := "06-texture-in", bars := some (41, 56),
    layers := ["kick", "snare", "hats-feature", "hats-feature-alt", "bass", "ghost-snare",
      "ghost-snare-alt", "texture", "texture-alt", "adlib-hat"] },
  { id := "07-outro-drums", layers := ["kick", "snare", "hats"], bars := some (57, 64) }]

def rules : RuleSet where
  layers := layers
  phases := phases
  stretch := true
  rotate := true
  ids_nodup := by decide

def template : Template where
  id := "rap-80s"
  label := "80's Rap"
  description :=
    "Kick and snare anchor, seed-varied optional layers, locked hat and ghost-note " ++
    "swing, and a stripped drum outro."
  bpm := 92
  bars := 64
  defaults := [("rotate", .bool true), ("grit", .real 0.6), ("swing", .real 0.2)]
  schema := [
    rotateSpec,
    unitSpec "grit",
    { key := "swing", kind := .number, low := 0, high := 0.3, step := 0.05 }]
  rules := rules
  adjust := adjust

end PatternLoom.Catalog.Rap80s
