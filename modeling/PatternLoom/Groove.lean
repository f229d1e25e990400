import PatternLoom.Layer

/-! Swing on chosen layers. -/

namespace PatternLoom

/-- A swing amount on a number of slots a cycle, for the layers named or, if none are, for
all drums. -/
structure Groove where
  swing : Binary64
  subdivision : Binary64 := 4
  layers : Option (List String) := none

namespace Groove

def swingStep : Binary64 := 0.02

/-- A groove swings if its amount is finite and above zero. -/
def isActive (g : Groove) : Bool := g.swing.isFinite && 0 < g.swing

def slots (g : Groove) : Result Int := do return max 1 (← g.subdivision.roundHalfUp)

def appliesTo (g : Groove) (layer : Layer) : Bool :=
  g.isActive && match g.layers with
    | some ids => ids.contains layer.id
    | none => layer.kind = .drums

def call (g : Groove) : Result String := do
  let amount ← g.swing.onGrid swingStep
  return ".swingBy(" ++ Decimal.compact amount ++ ", " ++ toString (← g.slots) ++ ")"

end Groove
end PatternLoom
