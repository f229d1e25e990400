import PatternLoom.Order.Run

/-! Two neighbouring runs merged into one. What is in place already is left alone; of the
rest, the shorter run is set aside and merged with the other from the end where the other
one stands. Elements move one by one until one run has won often enough, and then in
stretches whose ends are found by leaps. -/

namespace PatternLoom
namespace Order

/-- Leaps of growing length, 1, 3, 7 and so on, as long as a property holds and not beyond a
bound: the last leap that it held for, and the one after. -/
def leap (holds : Nat → Bool) (bound last next : Nat) : Nat × Nat :=
  if _h : last < next ∧ next < bound then
    if holds next then leap holds bound next (2 * next + 1) else (last, next)
  else (last, min next bound)
termination_by bound - last

/-- The place where a property ends that holds up to some place, looked for from a hint on. -/
def boundary {α : Type} (p : α → Bool) (xs : Array α) (hint : Nat) : Nat :=
  let holds := fun i => xs[i]?.any p
  if holds hint then
    let (last, next) := leap (fun n => holds (hint + n)) (xs.size - hint) 0 1
    bisect p xs (hint + last + 1) (hint + next)
  else
    let (last, next) := leap (fun n => !holds (hint - n)) (hint + 1) 0 1
    bisect p xs (hint + 1 - next) (hint - last)

/-- A way to merge, from the front or from the back. The run that is kept aside and the other
one both have the next element to be moved at their head. -/
structure Direction (α : Type) where
  /-- Whether the head of the other run, given first, moves before that of the kept one. -/
  otherFirst : α → α → Bool
  /-- How many elements of the kept run move before an element of the other one. -/
  keptBefore : α → List α → Nat
  /-- How many elements of the other run move before an element of the kept one. -/
  otherBefore : α → List α → Nat
  /-- Whether a round of stretches starts with the kept run. -/
  keptStarts : Bool

def fromFront {α : Type} (lt : α → α → Bool) : Direction α where
  otherFirst := lt
  keptBefore x kept := boundary (fun y => !lt x y) kept.toArray 0
  otherBefore x other := boundary (lt · x) other.toArray 0
  keptStarts := true

def fromBack {α : Type} (lt : α → α → Bool) : Direction α where
  otherFirst a b := lt b a
  keptBefore x kept := kept.length - boundary (lt · x) kept.toArray.reverse (kept.length - 1)
  otherBefore x other :=
    other.length - boundary (fun y => !lt x y) other.toArray.reverse (other.length - 1)
  keptStarts := false

/-- A merge part way through. `patience` is how often in a row a run has to win before it
moves in stretches. -/
structure Merging (α : Type) where
  kept : List α
  other : List α
  /-- What has been moved, the last element first. -/
  moved : List α := []
  patience : Nat

namespace Merging

/-- There is nothing more to compare: one run is used up, or the kept one has only its last
element, which goes last. -/
def isOver {α : Type} (m : Merging α) : Bool := m.other.isEmpty || m.kept.length ≤ 1

/-- All elements in the order in which they are moved. -/
def result {α : Type} (m : Merging α) : List α :=
  m.moved.reverse ++ match m.kept with
    | [last] => m.other ++ [last]
    | kept => kept ++ m.other

def moveKept {α : Type} (m : Merging α) (n : Nat) : Merging α :=
  { m with kept := m.kept.drop n, moved := (m.kept.take n).reverse ++ m.moved }

def moveOther {α : Type} (m : Merging α) (n : Nat) : Merging α :=
  { m with other := m.other.drop n, moved := (m.other.take n).reverse ++ m.moved }

/-- A stretch of the kept run, and the element of the other one that ends it. The count is
the length of the stretch. -/
def stretchKept {α : Type} (d : Direction α) (m : Merging α) : Merging α × Nat :=
  match m.other with
  | [] => (m, 0)
  | x :: _ =>
    let n := d.keptBefore x m.kept
    let moved := m.moveKept n
    (if moved.isOver then moved else moved.moveOther 1, n)

/-- A stretch of the other run, and the element of the kept one that ends it. -/
def stretchOther {α : Type} (d : Direction α) (m : Merging α) : Merging α × Nat :=
  match m.kept with
  | [] => (m, 0)
  | x :: _ =>
    let n := d.otherBefore x m.other
    let moved := m.moveOther n
    (if moved.isOver then moved else moved.moveKept 1, n)

def round {α : Type} (d : Direction α) (m : Merging α) : Merging α × Nat :=
  let first := if d.keptStarts then stretchKept d else stretchOther d
  let second := if d.keptStarts then stretchOther d else stretchKept d
  let (m, n) := first m
  if m.isOver then (m, n)
  else
    let (m, k) := second m
    (m, max n k)

/-- How long stretches have to be to go on with them. -/
def worthwhile : Nat := 7

/-- Moves elements until the merge is over. The wins are how often in a row the kept and the
other run came first; without them it moves stretches. Each step moves an element at least,
so the number of elements bounds the steps. -/
def steps {α : Type} (d : Direction α) (m : Merging α) (wins : Option (Nat × Nat)) :
    Nat → Merging α
  | 0 => m
  | fuel + 1 =>
    if m.isOver then m
    else
      match wins with
      | none =>
        let m := { m with patience := m.patience - if 1 < m.patience then 1 else 0 }
        let (m, longest) := m.round d
        if m.isOver || worthwhile ≤ longest then steps d m none fuel
        else steps d { m with patience := m.patience + 1 } (some (0, 0)) fuel
      | some (keptWins, otherWins) =>
        let otherNext := match m.kept, m.other with
          | a :: _, b :: _ => d.otherFirst b a
          | _, _ => false
        let wins := if otherNext then (0, otherWins + 1) else (keptWins + 1, 0)
        let m := if otherNext then m.moveOther 1 else m.moveKept 1
        if m.patience ≤ max wins.1 wins.2 && !m.isOver then
          steps d { m with patience := m.patience + 1 } none fuel
        else steps d m (some wins) fuel

/-- The merge of two runs of which the head of the other one is known to come first, and the
patience after it. -/
def run {α : Type} (d : Direction α) (kept other : List α) (patience : Nat) : List α × Nat :=
  let m : Merging α := { kept := kept, other := other, patience := patience }
  let m := (m.moveOther 1).steps d (some (0, 0)) (kept.length + other.length)
  (m.result, m.patience)

end Merging

/-- Two neighbouring runs as one, and the patience after that. -/
def mergeRuns {α : Type} (lt : α → α → Bool) (patience : Nat) (xs ys : List α) :
    List α × Nat :=
  match ys with
  | [] => (xs, patience)
  | y :: _ =>
    let settled := boundary (fun x => !lt y x) xs.toArray 0
    let before := xs.take settled
    match (xs.drop settled).getLast? with
    | none => (xs ++ ys, patience)
    | some last =>
      let left := xs.drop settled
      let open_ := boundary (lt · last) ys.toArray (ys.length - 1)
      let right := ys.take open_
      let after := ys.drop open_
      if right.isEmpty then (xs ++ ys, patience)
      else if left.length ≤ right.length then
        let (merged, patience) := Merging.run (fromFront lt) left right patience
        (before ++ merged ++ after, patience)
      else
        let (merged, patience) := Merging.run (fromBack lt) right.reverse left.reverse patience
        (before ++ merged.reverse ++ after, patience)

end Order
end PatternLoom
