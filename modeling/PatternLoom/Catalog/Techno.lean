import PatternLoom.Catalog.Support

namespace PatternLoom.Catalog.Techno

def stabOptions : List String := ["stab", "stab-alt"]
def percOptions : List String := ["perc", "perc-alt"]
def rumbleChance : Binary64 := 0.45

def fullKit : List String :=
  ["kick", "hat", "clap", "bass", "stab", "stab-alt", "perc", "perc-alt", "rumble"]

/-- Drive and brightness set the balance; the seed picks which optional layers play. One
stab and one perc variant sound once they enter, and the rumble is kept in a little under
half of all seeds. -/
def adjust (params : Params) (seed : String) : Result Adjustments := do
  let drive ← clamped params "drive" 0.2 1 0.8
  let bright ← clamped params "brightness" 0 1 0.6
  let s := optionalStream seed "techno"
  let (stab, s) ← s.pickOne stabOptions
  let (perc, s) ← s.pickOne percOptions
  let (rumbleDraw, _) := s.next
  let stabs := muteUnselected stabOptions [stab]
  let percs := muteUnselected percOptions [perc]
  let rumble := if rumbleDraw < rumbleChance then [] else [("rumble", muted)]
  return {
    rotate := rotates params true
    levels := [
      ("kick", gain (0.85 + drive * 0.11)),
      ("hat", gain (0.17 + drive * 0.12 + bright * 0.09)),
      ("clap", gain (0.32 + drive * 0.2)),
      ("bass", gain (0.14 + drive * 0.14)),
      ("stab", gain (0.07 + drive * 0.08 + bright * 0.09)),
      ("stab-alt", gain (0.06 + drive * 0.07 + bright * 0.08)),
      ("perc", gain (0.08 + drive * 0.14 + bright * 0.04)),
      ("perc-alt", gain (0.07 + drive * 0.12 + bright * 0.03)),
      ("rumble", gain (0.05 + drive * 0.08))]
    phaseLevels := [
      ("05-stab-hook", stabs ++ rumble),
      ("06-perc-accent", stabs ++ percs ++ rumble),
      ("07-tension-drop", stabs ++ percs ++ rumble ++ [("kick", gain (0.9 + drive * 0.08))]),
      ("08-full-return", stabs ++ percs ++ rumble),
      ("09-cycle-variation", stabs ++ percs ++ rumble),
      ("10-outro-perc-out", stabs ++ rumble),
      ("11-outro-clap-out", stabs ++ rumble),
      ("12-outro-stab-out", rumble)] }

def layers : List Layer := [
  { id := "kick", kind := .drums, levels := { gain := some 0.92 },
    patterns := patterns [("bd*4", 5), ("bd bd bd bd", 1)] },
  { id := "hat", kind := .drums, levels := { gain := some 0.3 },
    patterns := patterns [("~ hh ~ hh ~ hh ~ hh", 4), ("~ hh ~ hh [~ hh] ~ hh", 2)] },
  { id := "clap", kind := .drums, levels := { gain := some 0.52 },
    patterns := patterns [("~ cp ~ cp", 5), ("~ cp ~ [~ cp]", 1)] },
  { id := "bass", kind := .melodic, levels := { gain := some 0.24 }, instrument := some "square",
    patterns := patterns [("c2 ~ c2 ~ c2 ~ c2 ~", 4), ("c2 ~ ~ c2 c2 ~ ~ ~", 2)] },
  { id := "perc", kind := .drums, levels := { gain := some 0.2 },
    patterns := patterns [("~ ~ perc ~ ~ ~ ~ ~", 3), ("~ ~ ~ ~ perc ~ ~ ~", 2)] },
  { id := "perc-alt", kind := .drums, levels := { gain := some 0.18 },
    patterns := patterns [("~ perc ~ ~ ~ ~ perc ~", 2), ("~ ~ ~ perc ~ ~ ~ ~", 1)] },
  { id := "stab", kind := .melodic, levels := { gain := some 0.18 }, instrument := some "sawtooth",
    patterns := patterns [("~ c4 ~ ~ ~ ~ ~ ~", 3), ("~ ~ ~ eb4 ~ ~ ~ ~", 2)] },
  { id := "stab-alt", kind := .melodic, levels := { gain := some 0.16 }, instrument := some "square",
    patterns := patterns [("~ ~ c4 ~ ~ ~ ~ ~", 2), ("~ ~ ~ ~ eb4 ~ ~ ~", 1)] },
  { id := "rumble", kind := .melodic, levels := { gain := some 0.12 }, instrument := some "sine",
    patterns := patterns [("c1 ~ ~ ~ c1 ~ ~ ~", 2), ("c1 ~ c1 ~ ~ ~ c1 ~", 1)] }]

def phases : List Phase := [
  { id := "01-kick-lock", layers := ["kick"], bars := some (1, 4) },
  { id := "02-offbeat-hats", layers := ["kick", "hat"], bars := some (5, 8) },
  { id := "03-clap-structure", layers := ["kick", "hat", "clap"], bars := some (9, 12) },
  { id := "04-bass-pulse", layers := ["kick", "hat", "clap", "bass"], bars := some (13, 16) },
  { id := "05-stab-hook", bars := some (17, 24),
    layers := ["kick", "hat", "clap", "bass", "stab", "stab-alt", "rumble"] },
  { id := "06-perc-accent", layers := fullKit, bars := some (25, 32) },
  { id := "07-tension-drop", bars := some (33, 34),
    layers := ["kick", "clap", "bass", "stab", "stab-alt", "perc", "perc-alt", "rumble"] },
  { id := "08-full-return", layers := fullKit, bars := some (35, 40) },
  { id := "09-cycle-variation", layers := fullKit, bars := some (41, 56) },
  { id := "10-outro-perc-out", bars := some (57, 58),
    layers := ["kick", "hat", "clap", "bass", "stab", "stab-alt", "rumble"] },
  { id := "11-outro-clap-out", bars := some (59, 60),
    layers := ["kick", "hat", "bass", "stab", "stab-alt", "rumble"] },
  { id := "12-outro-stab-out", layers := ["kick", "hat", "bass", "rumble"], bars := some (61, 62) },
  { id := "13-outro-bass-out", layers := ["kick", "hat"], bars := some (63, 64) }]

def rules : RuleSet where
  layers := layers
  phases := phases
  stretch := true
  rotate := true
  ids_nodup := by decide

def template : Template where
  id := "techno"
  label := "Techno"
  description :=
    "Additive four-on-the-floor build with seed-varied optional layers, a brief " ++
    "tension drop, and a stripped outro."
  bpm := 132
  bars := 64
  defaults := [("rotate", .bool true), ("drive", .real 0.8), ("brightness", .real 0.6)]
  schema := [rotateSpec, amountSpec "drive", unitSpec "brightness"]
  rules := rules
  adjust := adjust

end PatternLoom.Catalog.Techno
