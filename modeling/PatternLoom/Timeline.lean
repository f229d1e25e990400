import PatternLoom.Order
import PatternLoom.RuleSet

/-! The bars of a piece divided among its phases. Each phase is placed on a range of bars;
the ranges, in order of their start, are cut down to one contiguous cover in which the
first range to claim a bar keeps it and unclaimed bars are gaps. -/

namespace PatternLoom

/-- A phase with the first and the last bar it claims. -/
structure Placement where
  phase : Phase
  first : Int
  last : Int

/-- A part of the cover: a phase, or a gap where there is none. The index counts the phases
before it. -/
structure Segment where
  phase : Option Phase
  first : Int
  last : Int
  index : Nat

namespace Segment

def isGap (s : Segment) : Bool := s.phase.isNone

def id (s : Segment) : String :=
  match s.phase with
  | some phase => phase.id
  | none => "gap-" ++ toString s.first ++ "-" ++ toString s.last

def span (s : Segment) : Int := max 1 (s.last - s.first + 1)

def layers (s : Segment) : List String := (s.phase.map Phase.layers).getD []

def levels (s : Segment) : Table Levels := (s.phase.map Phase.levels).getD []

end Segment

/-- A requested bar count as a whole number of at least one. -/
def safeBars (bars : Binary64) : Result Int :=
  if bars.isFinite then do return max 1 (← bars.roundHalfUp) else .ok 1

/-- The whole bars before a share of the piece has passed. -/
def barsBefore (share : Binary64) (bars : Int) : Result Int := do
  (share * (← Binary64.ofInt bars)).floor

def startShare (phase : Phase) : Binary64 := (phase.share.map (·.1)).getD 0

/-- Order by start share, then by id. -/
def startsBefore (p q : Phase) : Bool :=
  if (startShare p).equal (startShare q) then decide (p.id < q.id)
  else decide (startShare p < startShare q)

/-- Each phase from `first` on runs to the bar before the start of the next one, and has at
least one bar; the last one runs to the end. -/
def tileFrom (bars first : Int) : List Phase → Result (List Placement)
  | [] => .ok []
  | [phase] => .ok [⟨phase, first, bars⟩]
  | phase :: next :: rest => do
    let before ← barsBefore ((next.share.map (·.1)).getD 1) bars
    let last := max first (min bars (max first (before + 1) - 1))
    return ⟨phase, first, last⟩ :: (← tileFrom bars (last + 1) (next :: rest))

def tile (phases : List Phase) (bars : Int) : Result (List Placement) :=
  tileFrom bars 1 (sortBy startsBefore (fun p => !(startShare p).isNan) phases)

def clampBar (bar bars : Int) : Result Int := do
  return max 1 (min (← (← Binary64.ofInt bar).roundHalfUp) bars)

/-- The bars a phase claims, before they are moved into the piece. -/
def claimedBars (phase : Phase) (bars : Int) (scale : Binary64) : Result (Int × Int) := do
  match phase.share, phase.bars with
  | some (start, stop), _ =>
    let first := (← barsBefore start bars) + 1
    return (first, max first (← barsBefore stop bars))
  | none, none => .error (.phaseWithoutRange phase.id)
  | none, some (first, last) =>
    if scale.equal 1 then return (first, last)
    else
      let before ← ((← Binary64.ofInt (first - 1)) * scale).floor
      return (before + 1, ← ((← Binary64.ofInt last) * scale).floor)

def place (bars : Int) (scale : Binary64) (phase : Phase) : Result Placement := do
  let (first, last) ← claimedBars phase bars scale
  return ⟨phase, ← clampBar first bars, ← clampBar last bars⟩

/-- The last bar that any phase gives, or the last of the piece if that is none or zero. -/
def declaredEnd (phases : List Phase) (bars : Int) : Int :=
  match (phases.filterMap Phase.bars).map (·.2) with
  | [] => bars
  | last :: lasts =>
    let last := lasts.foldl max last
    if last = 0 then bars else last

def RuleSet.scale (rules : RuleSet) (bars : Int) : Result Binary64 :=
  if rules.stretch then Binary64.ofQuotient bars (declaredEnd rules.phases bars) else .ok 1

/-- Every phase on the bars it claims. Phases that all give shares are tiled. -/
def RuleSet.placements (rules : RuleSet) (bars : Int) : Result (List Placement) :=
  if !rules.phases.isEmpty && rules.phases.all (·.share.isSome) then tile rules.phases bars
  else do rules.phases.mapM (place bars (← rules.scale bars))

/-- Order by first bar, then by last bar, then by id. -/
def Placement.precedes (p q : Placement) : Bool :=
  if p.first ≠ q.first then p.first < q.first
  else if p.last ≠ q.last then p.last < q.last
  else p.phase.id < q.phase.id

/-- Placements in that order, those that do not differ in it in the order given. -/
def Placement.inOrder (ps : List Placement) : List Placement :=
  ps.mergeSort fun p q => !q.precedes p

/-- The cover from `cursor` to the last bar, `index` phases having come before. -/
def cover (bars : Int) (cursor : Int) (index : Nat) : List Placement → List Segment
  | [] => if cursor ≤ bars then [⟨none, cursor, bars, index⟩] else []
  | p :: ps =>
    let first := max cursor p.first
    if bars < first ∨ p.last < first then cover bars cursor index ps
    else
      let own := ⟨some p.phase, first, p.last, index⟩ :: cover bars (p.last + 1) (index + 1) ps
      if cursor < first then ⟨none, cursor, first - 1, index⟩ :: own else own

/-- The phases of a piece of the given length as a contiguous cover of its bars. -/
def RuleSet.segments (rules : RuleSet) (bars : Int) : Result (List Segment) := do
  return cover bars 1 0 (Placement.inOrder (← rules.placements bars))

end PatternLoom
