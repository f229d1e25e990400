import PatternLoom.Program
import PatternLoom.Value

/-! Templates: a rule set, the parameters a user may set, and how they adjust the rules. -/

namespace PatternLoom

inductive ParamKind where
  | number
  | select
  | boolean
  deriving DecidableEq

def ParamKind.name : ParamKind → String
  | number => "number"
  | select => "select"
  | boolean => "boolean"

def ParamKind.ofName? (name : String) : Option ParamKind :=
  [number, select, boolean].find? (·.name = name)

/-- A parameter. The bounds and the step matter to numbers, the options to selections. -/
structure ParamSpec where
  key : String
  kind : ParamKind
  low : Binary64 := 0
  high : Binary64 := 1
  step : Binary64 := 0.05
  options : List String := []
  bounds : kind = .number → ¬ high < low ∧ ¬ step ≤ 0 := by decide +kernel

namespace ParamSpec

/-- Fails if there is no such kind, and for numbers if the bounds are crossed or the step
is not above zero. -/
def make (key kind : String) (low high step : Binary64) (options : List String) :
    Result ParamSpec :=
  match ParamKind.ofName? kind with
  | none => .error (.unknownParamType kind key)
  | some k =>
    if h : k = .number then
      if h₁ : high < low then .error (.maxBelowMin key)
      else if h₂ : step ≤ 0 then .error (.stepNotPositive key)
      else .ok ⟨key, k, low, high, step, options, fun _ => ⟨h₁, h₂⟩⟩
    else .ok ⟨key, k, low, high, step, options, fun h' => absurd h' h⟩

/-- The number moved within the bounds; what compares with neither stays. -/
def clamp (spec : ParamSpec) (x : Binary64) : Binary64 :=
  if x < spec.low then spec.low else if spec.high < x then spec.high else x

/-- The value that a draw from `[0, 1)` selects: a number on the grid of steps, one of the
options, or a fair coin. -/
def sample (spec : ParamSpec) (draw : Binary64) : Result Value :=
  match spec.kind with
  | .number => do
    let steps := max 1 (← ((spec.high - spec.low) / spec.step).roundHalfUp)
    let index ← (draw * (← Binary64.ofInt (steps + 1))).floor
    let value := spec.low + (← Binary64.ofInt index) * spec.step
    return .real (Decimal.roundTo 4 (spec.clamp value))
  | .select =>
    if spec.options.isEmpty then .ok (.text "")
    else do
      match nth spec.options (← (draw * (← Binary64.ofInt spec.options.length)).floor) with
      | some option => return .text option
      | none => .error .noSuchPosition
  | .boolean => .ok (.bool (0.5 < draw))

/-- The value for an override: a number is moved within the bounds, and what is not a
finite number gives way to the sample; a selection that is not offered becomes the first
option; a truth value is read from anything. What is no number, and every selection, has
to be written. -/
def override (spec : ParamSpec) (given sampled : Value) : Result Value :=
  match spec.kind with
  | .number => do
    match ← given.number? with
    | some x => return if x.isFinite then .real (spec.clamp x) else sampled
    | none =>
      let _ ← given.written
      return sampled
  | .select => do
    let candidate ← given.written
    return .text (if spec.options.contains candidate then candidate else spec.options.headD "")
  | .boolean => .ok (.bool given.isTrue)

end ParamSpec

structure Template where
  id : String
  label : String
  description : String := ""
  bpm : Binary64 := 120
  bars : Int := 8
  defaults : Params := []
  schema : List ParamSpec := []
  rules : RuleSet
  adjust : Params → String → Result Adjustments := fun _ _ => .ok {}

namespace Template

def param? (t : Template) (key : String) : Option ParamSpec := t.schema.find? (·.key = key)

def unknownKeys (t : Template) (overrides : Params) : List String :=
  (overrides.map (·.1)).filter fun key => (t.param? key).isNone

def unknownKeyWarning (t : Template) (key : String) : String :=
  "Ignoring unknown parameter '" ++ key ++ "' for template " ++ t.id

/-- Sets each key of the schema in turn, from its own draw of the stream or from an
override. An overridden key spends its draw too. -/
def resolveFrom (s : Stream) (overrides : Params) (resolved : Params) :
    List ParamSpec → Result Params
  | [] => .ok resolved
  | spec :: schema => do
    let (draw, s) := s.next
    let sampled ← spec.sample draw
    let value ← match overrides.get? spec.key with
      | some given => if given.isNull then pure sampled else spec.override given sampled
      | none => pure sampled
    resolveFrom s overrides (resolved.put spec.key value) schema

/-- The parameters of a build: the defaults, and a value for each key of the schema. -/
def resolve (t : Template) (seed : String) (overrides : Params) : Result Params :=
  resolveFrom (.ofSeed seed) overrides t.defaults t.schema

/-- The program of a build. Other rules may stand in for those of the template. -/
def program (t : Template) (bpm bars : Binary64) (params : Params) (seed : String)
    (rules : Option RuleSet) : Result String := do
  let adjustments ← t.adjust params seed
  (rules.getD t.rules).program bpm bars seed adjustments

end Template
end PatternLoom
