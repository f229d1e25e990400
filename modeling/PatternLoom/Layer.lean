import PatternLoom.Binary64.Arithmetic
import PatternLoom.Decimal.Fixed
import PatternLoom.Text.Literal
import PatternLoom.Stream

/-! Layers: the named parts of a piece, each with weighted patterns to choose from, and the
levels they play at. -/

namespace PatternLoom

/-- Playback levels; what is not set is left to others. -/
structure Levels where
  gain : Option Binary64 := none
  slow : Option Binary64 := none
  fast : Option Binary64 := none
  deriving DecidableEq

namespace Levels

/-- Every level of `upper` that is set, and those of `lower` for the rest. -/
def under (lower upper : Levels) : Levels :=
  ⟨upper.gain <|> lower.gain, upper.slow <|> lower.slow, upper.fast <|> lower.fast⟩

/-- `under`, where there may be no upper levels. -/
def underAny (lower : Levels) (upper : Option Levels) : Levels := lower.under (upper.getD {})

end Levels

/-- A pattern and its likelihood among the patterns of a layer. -/
structure PatternOption where
  value : String
  weight : Binary64
  weight_not_negative : ¬ weight < 0

def PatternOption.make (value : String) (weight : Binary64) : Result PatternOption :=
  if h : weight < 0 then .error (.negativeWeight value) else .ok ⟨value, weight, h⟩

inductive LayerKind where
  | drums
  | melodic
  | texture
  deriving DecidableEq

def LayerKind.name : LayerKind → String
  | drums => "drums"
  | melodic => "melodic"
  | texture => "texture"

def LayerKind.ofName? (name : String) : Option LayerKind :=
  [drums, melodic, texture].find? (·.name = name)

/-- A named part. Without an instrument its patterns name samples, with one they name
notes that the instrument plays. -/
structure Layer where
  id : String
  kind : LayerKind
  patterns : List PatternOption
  levels : Levels := {}
  instrument : Option String := none

def Layer.make (id kind : String) (patterns : List PatternOption) (levels : Levels)
    (instrument : Option String) : Result Layer :=
  match LayerKind.ofName? kind with
  | some k => .ok ⟨id, k, patterns, levels, instrument⟩
  | none => .error (.unknownKind kind id)

def rest : String := "~"

/-- One of the patterns of a layer by a weighted draw, and a rest if it has none or the
pattern is empty. -/
def Layer.pickPattern (layer : Layer) (s : Stream) : String × Stream :=
  let (pattern, s) := s.weighted (layer.patterns.map fun option => (option.value, option.weight))
  match pattern with
  | some p => (if p.isEmpty then rest else p, s)
  | none => (rest, s)

end PatternLoom
