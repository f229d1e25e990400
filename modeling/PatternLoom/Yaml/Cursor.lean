import PatternLoom.Failure

/-! Places in a settings document. Columns count from the start of the line, and the place
knows whether a key or an entry of a block may begin there. -/

namespace PatternLoom
namespace Yaml

def malformed {α : Type} : Result α := .error .malformedDocument

/-- What has been read, unless it is malformed. -/
def given {α : Type} : Option α → Result α
  | some a => .ok a
  | none => malformed

/-- The ends of lines that are left after `unifyBreaks`. -/
def isBreak (c : Char) : Bool := c = '\n' || c = '\u2028' || c = '\u2029'

/-- All spellings of an ordinary end of line as one character. -/
def unifyBreaks : List Char → List Char
  | [] => []
  | '\r' :: '\n' :: cs => '\n' :: unifyBreaks cs
  | c :: cs => (if c = '\r' || c = '\u0085' then '\n' else c) :: unifyBreaks cs

/-- The characters that a document may hold. -/
def isAllowed (c : Char) : Bool :=
  let n := c.toNat
  n == 0x09 || n == 0x0a || n == 0x0d || (0x20 ≤ n && n ≤ 0x7e) || n == 0x85 ||
    (0xa0 ≤ n && n ≤ 0xfffd) || 0x10000 ≤ n

/-- Whether a text starts with blank space, or with nothing at all. -/
def startsGap : List Char → Bool
  | [] => true
  | c :: _ => c = ' ' || c = '\t' || isBreak c

/-- Whether a text starts with a mark of three characters that stands by itself. -/
def startsMark (mark : Char) : List Char → Bool
  | a :: b :: c :: cs => a = mark && b = mark && c = mark && startsGap cs
  | _ => false

def startsBoundary (cs : List Char) : Bool := startsMark '-' cs || startsMark '.' cs

def byteOrderMark : Char := '\ufeff'

structure Cursor where
  rest : List Char
  index : Nat := 0
  line : Nat := 0
  column : Nat := 0
  /-- Whether a key or an entry of a block may begin here. -/
  fresh : Bool := true

namespace Cursor

def step (p : Cursor) : Cursor :=
  match p.rest with
  | [] => p
  | c :: cs =>
    if isBreak c then ⟨cs, p.index + 1, p.line + 1, 0, true⟩
    else ⟨cs, p.index + 1, p.line, if c = byteOrderMark then p.column else p.column + 1, p.fresh⟩

def advance (p : Cursor) : Nat → Cursor
  | 0 => p
  | n + 1 => p.step.advance n

def stale (p : Cursor) : Cursor := { p with fresh := false }

/-- Whether a mark that separates documents stands here. -/
def atBoundary (p : Cursor) : Bool := p.column == 0 && startsBoundary p.rest

end Cursor

/-- The length of the spaces, line ends and comments at the head of a text. -/
def gapLength (inComment : Bool) : List Char → Nat
  | [] => 0
  | c :: cs =>
    if isBreak c then gapLength false cs + 1
    else if inComment || c = ' ' then gapLength inComment cs + 1
    else if c = '#' then gapLength true cs + 1
    else 0

/-- The place where the next token starts. Between brackets the ends of lines do not matter
to what may begin there. -/
def Cursor.next (p : Cursor) (bracketed : Bool) : Cursor :=
  let q := p.advance (gapLength false p.rest)
  if bracketed then { q with fresh := p.fresh } else q

/-- The length of the rest of a line that holds nothing but spaces and a comment, with its
end. -/
def emptyLine? (afterSpace : Bool) : List Char → Option Nat
  | [] => some 0
  | c :: cs =>
    if isBreak c then some 1
    else if c = ' ' then (emptyLine? true cs).map (· + 1)
    else if c = '#' && afterSpace then
      let n := (cs.takeWhile (!isBreak ·)).length + 1
      some (if cs.length < n then n else n + 1)
    else none

/-- The most characters that a key and the gap behind it may have. -/
def keyLimit : Nat := 1024

/-- Whether what stands between two places is short enough for a key, and on one line. -/
def Cursor.isKeyTo (p q : Cursor) : Bool := p.line == q.line && q.index ≤ p.index + keyLimit

end Yaml
end PatternLoom
