import PatternLoom.Yaml.Cursor

/-! Text set off as a block of lines behind a mark. The block is as deep as its first line
that is not empty, or as the mark says, and the mark also tells whether the line ends at its
bottom are kept. A bar keeps the other line ends; an angle folds them into spaces. -/

namespace PatternLoom
namespace Yaml

/-- What becomes of the line ends at the bottom of a block. -/
inductive Bottom where
  | dropped
  | single
  | kept
  deriving DecidableEq

/-- The depth of a block as its mark gives it. -/
def depthDigit? (c : Char) : Option Nat :=
  if '1' ≤ c && c ≤ '9' then some (c.toNat - '0'.toNat) else none

def bottomSign? (c : Char) : Option Bottom :=
  if c = '+' then some .kept else if c = '-' then some .dropped else none

/-- What follows the mark: a sign for the bottom and a digit for the depth, in any order, and
their length. -/
def blockSigns : List Char → Bottom × Option Nat × Nat
  | [] => (.single, none, 0)
  | c :: cs =>
    match bottomSign? c, depthDigit? c with
    | some bottom, _ =>
      match cs.head?.bind depthDigit? with
      | some depth => (bottom, some depth, 2)
      | none => (bottom, none, 1)
    | none, some depth =>
      match cs.head?.bind bottomSign? with
      | some bottom => (bottom, some depth, 2)
      | none => (.single, some depth, 1)
    | none, none => (.single, none, 0)

/-- The line ends among the spaces at the head of a text, the widest run of spaces, and how
many characters there are. -/
def leadingLines (column widest : Nat) : List Char → List Char × Nat × Nat
  | [] => ([], widest, 0)
  | c :: cs =>
    if c = ' ' then
      let (breaks, widest, n) := leadingLines (column + 1) (max widest (column + 1)) cs
      (breaks, widest, n + 1)
    else if isBreak c then
      let (breaks, widest, n) := leadingLines 0 widest cs
      (c :: breaks, widest, n + 1)
    else ([], widest, 0)

/-- The line ends at the head of a text, each after no more spaces than the block is deep,
and how many characters there are up to the text of the next line. -/
def emptyLines (depth column : Nat) : List Char → List Char × Nat
  | [] => ([], 0)
  | c :: cs =>
    if c = ' ' && column < depth then
      let (breaks, n) := emptyLines depth (column + 1) cs
      (breaks, n + 1)
    else if isBreak c then
      let (breaks, n) := emptyLines depth 0 cs
      (c :: breaks, n + 1)
    else ([], 0)

def startsSpace (cs : List Char) : Bool := cs.head?.any fun c => c = ' ' || c = '\t'

/-- The lines of a block from a place on, the line ends at its bottom apart: the one of the
last line, and those after it. -/
def blockLines (folding : Bool) (depth : Nat) (p : Cursor) :
    Nat → List Char × List Char × List Char × Cursor
  | 0 => ([], [], [], p)
  | fuel + 1 =>
    let line := p.rest.takeWhile (!isBreak ·)
    let ending := (p.rest.drop line.length).take 1
    let q := p.advance (line.length + ending.length)
    let (breaks, n) := emptyLines depth q.column q.rest
    let q := q.advance n
    if q.column == depth && !q.rest.isEmpty then
      let joint :=
        if folding && ending == ['\n'] && !startsSpace line && !startsSpace q.rest then
          if breaks.isEmpty then [' '] else []
        else ending
      let (more, bottom) := blockLines folding depth q fuel
      (line ++ joint ++ breaks ++ more, bottom)
    else (line, ending, breaks, q)

/-- The text of a block, from behind its mark on, and the place behind it. It is deeper than
the block of entries around it. -/
def blockText (folding : Bool) (margin : Nat) (p : Cursor) : Option (List Char × Cursor) := do
  let (bottom, depth, n) := blockSigns p.rest
  let m ← emptyLine? false (p.rest.drop n)
  let p := p.advance (n + m)
  let least := max margin 1
  let (breaks, depth, n) := match depth with
    | some depth =>
      let (breaks, n) := emptyLines (least + depth - 1) p.column p.rest
      (breaks, least + depth - 1, n)
    | none =>
      let (breaks, widest, n) := leadingLines p.column 0 p.rest
      (breaks, max least widest, n)
  let p := p.advance n
  let (text, ending, after, q) :=
    if p.column == depth && !p.rest.isEmpty then
      let (text, bottom) := blockLines folding depth p (p.rest.length + 1)
      (breaks ++ text, bottom)
    else ([], [], breaks, p)
  let q := { q with fresh := true }
  return match bottom with
    | .dropped => (text, q)
    | .single => (text ++ ending, q)
    | .kept => (text ++ ending ++ after, q)

end Yaml
end PatternLoom
