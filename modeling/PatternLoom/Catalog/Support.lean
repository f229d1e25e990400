import PatternLoom.Template

/-! What the templates of the catalog are written with. -/

namespace PatternLoom

theorem Binary64.zero_eq : (0 : Binary64) = .zero false := by decide +kernel

theorem Binary64.ofFraction_not_neg (num den : Nat) : ¬ Binary64.ofFraction false num den < 0 := by
  rw [Binary64.zero_eq]
  unfold Binary64.ofFraction Binary64.ofUnits
  split
  · rw [Binary64.zero, Binary64.lt_finite]
    simp [Binary64.units]
  · simp [LT.lt, Binary64.lt, Binary64.zero]

namespace Catalog

def pattern (value : String) (weight : Nat) : PatternOption :=
  ⟨value, .ofFraction false weight 1, Binary64.ofFraction_not_neg weight 1⟩

def patterns (options : List (String × Nat)) : List PatternOption :=
  options.map fun option => pattern option.1 option.2

/-- Levels with a gain to three places. -/
def gain (x : Binary64) : Levels := { gain := some (Decimal.roundTo 3 x) }

/-- Levels with a gain and a slowing to three places. -/
def slowed (g slow : Binary64) : Levels :=
  { gain := some (Decimal.roundTo 3 g), slow := some (Decimal.roundTo 3 slow) }

/-- Levels with a gain and a quickening to three places. -/
def hastened (g fast : Binary64) : Levels :=
  { gain := some (Decimal.roundTo 3 g), fast := some (Decimal.roundTo 3 fast) }

def muted : Levels := { gain := some 0 }

/-- The stream for the choices among optional layers of a template. -/
def optionalStream (seed name : String) : Stream := .ofSeed (seed ++ ":" ++ name ++ ":optional")

/-- Mutes every option that is not kept. -/
def muteUnselected (options keep : List String) : Table Levels :=
  (options.filter (!keep.contains ·)).foldl (fun t option => t.put option muted) []

def clamped (params : Params) (key : String) (low high fallback : Binary64) : Result Binary64 := do
  return .clamp low high (← Value.toNumber fallback (params.get? key))

def rotates (params : Params) (fallback : Bool) : Option Bool :=
  some (Value.toBool fallback (params.get? "rotate"))

def rotateSpec : ParamSpec := { key := "rotate", kind := .boolean }

def unitSpec (key : String) : ParamSpec :=
  { key := key, kind := .number, low := 0, high := 1, step := 0.05 }

/-- A parameter that never falls below a fifth. -/
def amountSpec (key : String) : ParamSpec :=
  { key := key, kind := .number, low := 0.2, high := 1, step := 0.05 }

/-- Moves a parameter that runs from 0.2 to 1 onto `[0, 1]`. -/
def unitScale (x : Binary64) : Binary64 := (x - 0.2) / 0.8

end Catalog
end PatternLoom
