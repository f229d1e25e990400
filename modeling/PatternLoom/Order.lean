import PatternLoom.Order.Merge

/-! Stable sorting by a strict comparison. Keys without a place in the order, which compare
with nothing, leave the result to the order of comparisons, so that order is fixed here:
runs are taken from the front of the list, and each new one decides which of the runs before
it are merged first, as in an even tree over the whole list. -/

namespace PatternLoom
namespace Order

/-- A sorted run, where it starts in the list, and its depth: that of the join with the run
after it in the even tree. -/
structure PlacedRun (α : Type) where
  start : Nat
  items : List α
  depth : Nat := 0

/-- The depth of the join of two neighbouring stretches of a list of `n` elements, from twice
the middles of the two. -/
def joinDepth (n middle next : Nat) : Nat → Nat
  | 0 => 0
  | fuel + 1 =>
    if n ≤ middle then joinDepth n (2 * (middle - n)) (2 * (next - n)) fuel + 1
    else if n ≤ next then 1
    else joinDepth n (2 * middle) (2 * next) fuel + 1

/-- The runs so far, the last one first, and the patience of merges. -/
structure Pile (α : Type) where
  runs : List (PlacedRun α) := []
  patience : Nat := 7

namespace Pile

/-- Merges the last two runs, as long as the earlier of them joins at a greater depth. -/
def settle {α : Type} (lt : α → α → Bool) (depth patience : Nat) :
    List (PlacedRun α) → Pile α
  | [] => ⟨[], patience⟩
  | [last] => ⟨[{ last with depth := depth }], patience⟩
  | last :: second :: rest =>
    if depth < second.depth then
      let (items, patience) := mergeRuns lt patience second.items last.items
      settle lt depth patience ({ second with items := items } :: rest)
    else ⟨{ last with depth := depth } :: second :: rest, patience⟩
termination_by runs => runs.length

/-- Adds a run that starts at a place in a list of `n` elements. -/
def add {α : Type} (lt : α → α → Bool) (n start : Nat) (items : List α) (pile : Pile α) :
    Pile α :=
  match pile.runs with
  | [] => { pile with runs := [⟨start, items, 0⟩] }
  | last :: _ =>
    let middle := 2 * last.start + last.items.length
    let depth := joinDepth n middle (middle + last.items.length + items.length) (n.log2 + 2)
    let pile := settle lt depth pile.patience pile.runs
    { pile with runs := ⟨start, items, 0⟩ :: pile.runs }

/-- Merges all runs: the last two, or the two before the last if the first of these is
shorter than the last. -/
def collapse {α : Type} (lt : α → α → Bool) (patience : Nat) :
    List (PlacedRun α) → List α
  | [] => []
  | [only] => only.items
  | [last, second] => (mergeRuns lt patience second.items last.items).1
  | last :: second :: third :: rest =>
    if third.items.length < last.items.length then
      let (items, patience) := mergeRuns lt patience third.items second.items
      collapse lt patience (last :: { third with items := items } :: rest)
    else
      let (items, patience) := mergeRuns lt patience second.items last.items
      collapse lt patience ({ second with items := items } :: third :: rest)
termination_by runs => runs.length

end Pile

/-- The pile of all runs of a list of `n` elements, from those that start at a place on. -/
def pileUp {α : Type} (lt : α → α → Bool) (n start : Nat) (pile : Pile α) (xs : List α) :
    Nat → Pile α
  | 0 => pile
  | fuel + 1 =>
    if xs.isEmpty then pile
    else
      let (run, rest) := leadingRun lt (leastRun 0 n) xs
      pileUp lt n (start + run.length) (pile.add lt n start run) rest fuel

def sortByRuns {α : Type} (lt : α → α → Bool) (xs : List α) : List α :=
  let pile := pileUp lt xs.length 0 {} xs xs.length
  Pile.collapse lt pile.patience pile.runs

end Order

/-- The list in ascending order, equal elements in the order given. -/
def sortBy {α : Type} (lt : α → α → Bool) (hasPlace : α → Bool) (xs : List α) : List α :=
  if xs.all hasPlace then xs.mergeSort (fun x y => !lt y x) else Order.sortByRuns lt xs

theorem sortBy_eq_mergeSort {α : Type} {lt : α → α → Bool} {hasPlace : α → Bool} {xs : List α}
    (h : ∀ x ∈ xs, hasPlace x) : sortBy lt hasPlace xs = xs.mergeSort fun x y => !lt y x := by
  rw [sortBy, if_pos (List.all_eq_true.mpr h)]

/-- The element at a position; positions below zero count from the end. -/
def nth {α : Type} (xs : List α) (i : Int) : Option α :=
  let i := if i < 0 then i + xs.length else i
  if i < 0 then none else xs[i.toNat]?

end PatternLoom
