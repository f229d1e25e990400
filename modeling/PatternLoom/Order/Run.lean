/-! Runs: stretches of a list that are in order already, and places in them found by
halving. -/

namespace PatternLoom
namespace Order

/-- The first place between two where a property ends that holds up to some place, found by
halving. -/
def bisect {α : Type} (p : α → Bool) (xs : Array α) (low high : Nat) : Nat :=
  if _h : low < high then
    let middle := low + (high - low) / 2
    if xs[middle]?.any p then bisect p xs (middle + 1) high else bisect p xs low middle
  else low
termination_by high - low

/-- How many further elements continue a run that starts with `previous`: a strictly
falling run if `falling`, and otherwise one that never falls. -/
def runLength {α : Type} (lt : α → α → Bool) (falling : Bool) (previous : α) : List α → Nat
  | [] => 0
  | x :: xs => if lt x previous = falling then runLength lt falling x xs + 1 else 0

/-- The leading run of a list, turned round if it falls, and the rest. -/
def splitRun {α : Type} (lt : α → α → Bool) : List α → List α × List α
  | [] => ([], [])
  | [x] => ([x], [])
  | x :: y :: rest =>
    let falling := lt y x
    let n := runLength lt falling x (y :: rest) + 1
    let run := (x :: y :: rest).take n
    (if falling then run.reverse else run, (x :: y :: rest).drop n)

/-- A run with one more element, after all that it is not below. -/
def insertSorted {α : Type} (lt : α → α → Bool) (run : Array α) (x : α) : Array α :=
  run.insertIdxIfInBounds (bisect (fun y => !lt x y) run 0 run.size) x

/-- The leading run, made up to a least length with the elements after it. -/
def leadingRun {α : Type} (lt : α → α → Bool) (least : Nat) (xs : List α) : List α × List α :=
  let (run, rest) := splitRun lt xs
  let missing := least - run.length
  (((rest.take missing).foldl (insertSorted lt) run.toArray).toList, rest.drop missing)

/-- A length halved until it is below 64, and one more if anything was lost on the way. -/
def leastRun (lost n : Nat) : Nat :=
  if n < 64 then n + lost else leastRun (max lost (n % 2)) (n / 2)
termination_by n

end Order
end PatternLoom
