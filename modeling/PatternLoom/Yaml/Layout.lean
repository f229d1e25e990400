import PatternLoom.Yaml.Block
import PatternLoom.Yaml.Property
import PatternLoom.Yaml.Scalar

/-! From the text of a settings document to its tokens. A key is known by the colon after
it, so whatever may be one is remembered until that shows; the mark of a key then goes in
front of it. A block opens with the first of its keys or dashes, and closes where something
starts to the left of them. -/

namespace PatternLoom
namespace Yaml

/-- What may turn out to be a key. -/
structure Candidate where
  place : Cursor
  /-- How many tokens come before it. -/
  before : Nat
  /-- Whether nothing but a key can stand at its place. -/
  required : Bool

/-- How far a text has been read. -/
structure Layout where
  place : Cursor
  /-- The tokens so far, the last one first. -/
  tokens : List Token := []
  /-- For each open block, innermost first, the first column to the right of its entries. -/
  margins : List Nat := []
  candidate : Option Candidate := none
  /-- For each open bracket, innermost first, what may be a key outside of it. -/
  outer : List (Option Candidate) := []

namespace Layout

def bracketed (s : Layout) : Bool := !s.outer.isEmpty

/-- The first column where something inside the innermost block can start. -/
def margin (s : Layout) : Nat := s.margins.head?.getD 0

def push (s : Layout) (t : Token) : Layout := { s with tokens := t :: s.tokens }

/-- Adds a token and goes on behind it. -/
def goOn (s : Layout) (t : Token) (place : Cursor) : Layout :=
  { s.push t with place := place }

def insert (s : Layout) (before : Nat) (ts : List Token) : Layout :=
  let after := s.tokens.length - before
  { s with tokens := s.tokens.take after ++ ts.reverse ++ s.tokens.drop after }

/-- How many of the innermost blocks close at a margin, and the other ones. -/
def closedBlocks (margin : Nat) : List Nat → Nat × List Nat
  | [] => (0, [])
  | m :: ms =>
    if margin < m then
      let (n, rest) := closedBlocks margin ms
      (n + 1, rest)
    else (0, m :: ms)

/-- Closes the blocks whose entries start to the right of a margin. -/
def closeBlocks (s : Layout) (margin : Nat) : Layout :=
  if s.bracketed then s
  else
    let (n, margins) := closedBlocks margin s.margins
    { s with tokens := List.replicate n .closeBlock ++ s.tokens, margins := margins }

/-- Whether a block opens for an entry at a column. -/
def opensBlock (s : Layout) (column : Nat) : Bool := !s.bracketed && s.margin ≤ column

/-- Opens a block with a mark, if there is not yet one at the column. -/
def openBlock (s : Layout) (mark : Token) : Layout :=
  if s.opensBlock s.place.column then
    { s.push mark with margins := (s.place.column + 1) :: s.margins }
  else s

/-- Gives up what might have been a key. -/
def forget (s : Layout) : Result Layout :=
  if s.candidate.any (·.required) then malformed else .ok { s with candidate := none }

/-- Remembers that a key may start here. -/
def remember (s : Layout) : Result Layout :=
  if s.place.fresh then do
    let required := !s.bracketed && s.margin == s.place.column + 1
    return { (← s.forget) with candidate := some ⟨s.place, s.tokens.length, required⟩ }
  else .ok s

/-- A token that may start a key, up to the place behind it. -/
def part (s : Layout) (t : Token) (q : Cursor) : Result Layout := do
  return (← s.remember).goOn t q

/-- A mark of one character that ends what might have been a key. -/
def sign (s : Layout) (t : Token) (fresh : Bool) : Result Layout := do
  return (← s.forget).goOn t { s.place.step with fresh := fresh }

/-- A mark of one character for which a block may have to open. -/
def blockSign (s : Layout) (mark t : Token) (fresh : Bool) : Result Layout :=
  if s.bracketed || s.place.fresh then (s.openBlock mark).sign t fresh else malformed

def openBracket (s : Layout) (t : Token) : Result Layout := do
  let s ← s.remember
  let p := { s.place.step with fresh := true }
  return { s.goOn t p with candidate := none, outer := s.candidate :: s.outer }

def closeBracket (s : Layout) (t : Token) : Result Layout := do
  let s ← s.sign t false
  match s.outer with
  | [] => malformed
  | candidate :: outer => return { s with candidate := candidate, outer := outer }

/-- The colon behind a key. -/
def keyColon (s : Layout) (c : Candidate) : Layout :=
  let opens := s.opensBlock c.place.column
  let s := s.insert c.before (if opens then [.openEntries, .key] else [.key])
  let margins := if opens then (c.place.column + 1) :: s.margins else s.margins
  { s.goOn .value s.place.step.stale with margins := margins, candidate := none }

/-- A colon, which may have a key before it. -/
def colon (s : Layout) : Result Layout :=
  match s.candidate.filter (·.place.isKeyTo s.place) with
  | some c => .ok (s.keyColon c)
  | none => do (← s.forget).blockSign .openEntries .value (!s.bracketed)

/-- A mark at the start of a line that stands outside of all blocks. -/
def outside (s : Layout) (t : Token) (q : Cursor) : Result Layout := do
  return (← (s.closeBlocks 0).forget).goOn t q.stale

/-- A text, which is set off as a block, or between quotes, or plain. -/
def scalar (s : Layout) (c : Char) : Result Layout := do
  let p := s.place
  let fuel := p.rest.length + 1
  if (c = '|' || c = '>') && !s.bracketed then
    let (text, q) ← given (blockText (c = '>') s.margin p.step)
    return (← s.forget).goOn (.scalar false text) q
  else if c = '\'' || c = '"' then
    let (text, q) ← quotedText c p.step fuel
    s.part (.scalar false text) q
  else if startsPlain s.bracketed p.rest then
    let (text, q) := plainText s.bracketed s.margin p fuel
    s.part (.scalar true text) q
  else malformed

/-- Reads the token at the place, where there is the character `c`. -/
def token (s : Layout) (c : Char) : Result Layout := do
  let p := s.place
  let alone := startsGap p.step.rest
  if c = '%' && p.column == 0 then
    let (d, q) ← given (directiveAt p.step)
    s.outside (.directive d) q
  else if p.atBoundary then
    s.outside (if c = '-' then .documentStart else .documentEnd) (p.advance 3)
  else match c with
    | '[' => s.openBracket .openList
    | '\x7b' => s.openBracket .openMap
    | ']' => s.closeBracket .closeList
    | '\x7d' => s.closeBracket .closeMap
    | ',' => s.sign .comma true
    | '*' => do
      let (name, q) ← given (anchorName p.step)
      s.part (.reference name) q
    | '&' => do
      let (name, q) ← given (anchorName p.step)
      s.part (.anchor name) q
    | '!' => do
      let (t, q) ← given (tagAt p)
      s.part (.tag t) q
    | c =>
      if c = '-' && alone then s.blockSign .openItems .item true
      else if c = '?' && (s.bracketed || alone) then
        s.blockSign .openEntries .key (!s.bracketed)
      else if c = ':' && (s.bracketed || alone) then s.colon
      else s.scalar c

def candidates (s : Layout) : List Candidate := (s.candidate :: s.outer).filterMap id

/-- The tokens that cannot be behind the mark of a key that is still to come. -/
def settled (s : Layout) : List Token :=
  let waiting := (s.candidates.filter (·.place.isKeyTo s.place)).map (·.before)
  s.tokens.reverse.take (waiting.min?.getD s.tokens.length)

/-- Requires that what has to be a key still can be one. -/
def checkRequired (s : Layout) : Result Unit :=
  if s.candidates.any fun c => c.required && !c.place.isKeyTo s.place then malformed else .ok ()

/-- Reads one token, or what is left to do at the end. -/
def readOn (s : Layout) : Result Layout := do
  s.checkRequired
  match s.place.rest with
  | [] => (s.closeBlocks 0).forget
  | c :: _ => (s.closeBlocks (s.place.column + 1)).token c

/-- The tokens from a place on, up to a fault if there is one. -/
def readAll (s : Layout) : Nat → List Token
  | 0 => s.settled
  | fuel + 1 =>
    let place := s.place.next s.bracketed
    match ({ s with place := place } : Layout).readOn with
    | .ok s => if place.rest.isEmpty then s.tokens.reverse else s.readAll fuel
    | .error f => s.settled ++ [.fault f]

end Layout

def tokens (cs : List Char) : List Token :=
  let p : Cursor := { rest := unifyBreaks cs }
  let p := if cs.head? = some byteOrderMark then p.step else p
  ({ place := p } : Layout).readAll (cs.length + 1)

end Yaml
end PatternLoom
