import PatternLoom.Binary64.Arithmetic
import PatternLoom.Order

/-! Random numbers that a seed determines. A seed text is hashed to 32 bits; the state
advances by a fixed odd step and each draw mixes the state it reaches. -/

namespace PatternLoom

def codeUnits (c : Char) : List Nat :=
  let n := c.toNat
  if n < 0x10000 then [n] else [0xd800 + (n - 0x10000) / 0x400, 0xdc00 + (n - 0x10000) % 0x400]

def hashUnit (h : UInt32) (unit : Nat) : UInt32 := (h ^^^ UInt32.ofNat unit) * 16777619

/-- The FNV-1a hash of a seed over its UTF-16 code units. -/
def hashSeed (seed : String) : UInt32 :=
  (seed.toList.flatMap codeUnits).foldl hashUnit 2166136261

structure Stream where
  state : UInt32
  deriving DecidableEq

namespace Stream

def increment : UInt32 := 0x6d2b79f5

def ofSeed (seed : String) : Stream := ⟨hashSeed seed⟩

/-- The state is the number modulo 2^32. -/
def ofState (n : Int) : Stream := ⟨UInt32.ofNat (n % Int.pow 2 32).toNat⟩

def advance (s : Stream) : Stream := ⟨s.state + increment⟩

/-- The 32 bits drawn at a state. -/
def mix (state : UInt32) : UInt32 :=
  let x := (state ^^^ (state >>> 15)) * (state ||| 1)
  let x := x ^^^ (x + (x ^^^ (x >>> 7)) * (x ||| 61))
  x ^^^ (x >>> 14)

/-- A draw from `[0, 1)`, and the stream after it. -/
def next (s : Stream) : Binary64 × Stream :=
  (.ofFraction false (mix s.advance.state).toNat (Nat.pow 2 32), s.advance)

/-- The first `n` draws, and the stream after them. -/
def draws (s : Stream) : Nat → List Binary64 × Stream
  | 0 => ([], s)
  | n + 1 =>
    let (r, s) := s.next
    let (rs, s) := s.draws n
    (r :: rs, s)

/-- The integers that a draw is scaled to. -/
def resolution : Nat := Nat.pow 2 53

/-- The draws below the limit are spread evenly over the remainders by `n`. -/
def evenLimit (n : Nat) : Binary64 := .ofFraction false (resolution - resolution % n) resolution

/-- The first draw below the limit within a given count of draws. -/
def firstBelow (s : Stream) (limit : Binary64) : Nat → Option (Binary64 × Stream)
  | 0 => none
  | fuel + 1 =>
    let (r, s) := s.next
    if limit ≤ r then s.firstBelow limit fuel else some (r, s)

/-- An integer of `[0, n)`, every one equally likely. Beyond the resolution of a draw the
draw is scaled as it is. -/
def below (s : Stream) (n : Nat) : Result (Int × Stream) :=
  if resolution ≤ n then do
    let (r, s) := s.next
    return (← (r * (← Binary64.ofInt n)).floor, s)
  else
    match s.firstBelow (evenLimit n) (Nat.pow 2 32) with
    | none => .error .exhaustedStream
    | some (r, s) => do
      return ((← (r * .ofFraction false resolution 1).floor) % n, s)

/-- An integer from `a` to `b`, both included. -/
def integer (s : Stream) (a b : Int) : Result (Int × Stream) :=
  if b < a then .error .emptyInterval
  else do
    let (i, s) ← s.below (b - a + 1).toNat
    return (a + i, s)

def uniform (s : Stream) (a b : Binary64) : Binary64 × Stream :=
  let (r, s) := s.next
  (a + (b - a) * r, s)

/-- A member of a list, every position equally likely. -/
def choice {α : Type} (s : Stream) (xs : List α) : Result (α × Stream) :=
  if xs.isEmpty then .error .noSuchPosition
  else do
    let (i, s) ← s.below xs.length
    match nth xs i with
    | some x => return (x, s)
    | none => .error .noSuchPosition

/-- Swaps each of the last `i` positions with one that is not behind it. -/
def shuffleFrom {α : Type} (xs : Array α) (s : Stream) : Nat → Result (Array α × Stream)
  | 0 => .ok (xs, s)
  | i + 1 => do
    let (j, s) ← s.below (i + 2)
    shuffleFrom (xs.swapIfInBounds (i + 1) j.toNat) s i

def shuffle {α : Type} (s : Stream) (xs : List α) : Result (List α × Stream) := do
  let (xs, s) ← shuffleFrom xs.toArray s (xs.length - 1)
  return (xs.toList, s)

end Stream

/-- The first option whose weight brings the roll to zero or below, and otherwise the last. -/
def settle {α : Type} (roll : Binary64) : List (α × Binary64) → Option α
  | [] => none
  | [(value, _)] => some value
  | (value, weight) :: rest => if roll - weight ≤ 0 then some value else settle (roll - weight) rest

/-- The option a draw from `[0, 1)` selects, each with the likelihood of its weight. -/
def chooseWeighted {α : Type} (options : List (α × Binary64)) (draw : Binary64) : Option α :=
  settle (draw * .sum (options.map (·.2))) options

/-- A draw spent on a weighted choice; an empty list spends none. -/
def Stream.weighted {α : Type} (s : Stream) (options : List (α × Binary64)) : Option α × Stream :=
  if options.isEmpty then (none, s)
  else
    let (r, s) := s.next
    (chooseWeighted options r, s)

/-- A member of a list by one draw; the empty text, without a draw, if there is none. -/
def Stream.pickOne (s : Stream) (options : List String) : Result (String × Stream) :=
  if options.isEmpty then .ok ("", s)
  else do
    let (r, s) := s.next
    match nth options (← (r * (← Binary64.ofInt options.length)).floor) with
    | some option => return (option, s)
    | none => .error .noSuchPosition

end PatternLoom
