import PatternLoom.Groove
import PatternLoom.Table

/-! Rule sets: which layers there are, and in which phases of a piece they play. -/

namespace PatternLoom

/-- A span of bars, given by first and last bar or by shares of the piece, with the layers
that play in it and levels of their own for some of them. -/
structure Phase where
  id : String
  layers : List String
  bars : Option (Int × Int) := none
  share : Option (Binary64 × Binary64) := none
  levels : Table Levels := []

/-- `stretch` scales the phases given in bars so that the last of them ends with the piece;
`rotate` moves through the patterns of a layer phase by phase. -/
structure RuleSet where
  layers : List Layer
  phases : List Phase
  stretch : Bool := true
  rotate : Bool := false
  ids_nodup : (layers.map Layer.id).Nodup

namespace RuleSet

def firstRepeated (seen : List String) : List String → Option String
  | [] => none
  | id :: ids => if seen.contains id then some id else firstRepeated (id :: seen) ids

def make (layers : List Layer) (phases : List Phase) (stretch rotate : Bool) : Result RuleSet :=
  if h : (layers.map Layer.id).Nodup then .ok ⟨layers, phases, stretch, rotate, h⟩
  else .error (.duplicateLayer ((firstRepeated [] (layers.map Layer.id)).getD ""))

def layer? (rules : RuleSet) (id : String) : Option Layer := rules.layers.find? (·.id = id)

end RuleSet

structure Adjustments where
  rotate : Option Bool := none
  groove : Option Groove := none
  levels : Table Levels := []
  phaseLevels : Table (Table Levels) := []

/-- The levels of a layer in a phase: its own, under those of the build, under those of the
phase, under those of the build for the phase. -/
def resolveLevels (layer : Layer) (phaseId : String) (phaseLevels : Table Levels)
    (adjustments : Adjustments) : Levels :=
  layer.levels
    |>.underAny (adjustments.levels.get? layer.id)
    |>.underAny (phaseLevels.get? layer.id)
    |>.underAny (((adjustments.phaseLevels.get? phaseId).getD []).get? layer.id)

end PatternLoom
