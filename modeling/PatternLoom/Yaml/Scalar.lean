import PatternLoom.Text.Digit
import PatternLoom.Yaml.Cursor

/-! Text in a settings document: plain text, which ends at a colon, a comment or a mark of
a collection in brackets, and text between quotes. Both may go on over several lines; a
single line end then counts as a space, and further ones as themselves. -/

namespace PatternLoom
namespace Yaml

/-- The marks of collections in brackets. -/
def isBracketMark (c : Char) : Bool := c ∈ [',', '[', ']', '\x7b', '\x7d']

/-- Whether what follows a colon makes it the end of a key. -/
def endsKey (bracketed : Bool) (cs : List Char) : Bool :=
  startsGap cs || bracketed && (cs.head?.any isBracketMark)

def reservedStarts : List Char :=
  [',', '[', ']', '\x7b', '\x7d', '#', '&', '*', '!', '|', '>', '\'', '"', '%', '@', '\x60']

/-- Whether plain text starts here. A dash, and outside of brackets also a question mark
or a colon, starts one if something follows it directly. -/
def startsPlain (bracketed : Bool) : List Char → Bool
  | [] => false
  | c :: cs =>
    if c = '-' then !startsGap cs
    else if c = '?' || c = ':' then !bracketed && !startsGap cs
    else !startsGap (c :: cs) && !reservedStarts.contains c

/-- The length of the piece of plain text up to the next gap or mark. -/
def pieceLength (bracketed : Bool) : List Char → Nat
  | [] => 0
  | c :: cs =>
    if startsGap (c :: cs) then 0
    else if c = ':' && endsKey bracketed cs then 0
    else if bracketed && (isBracketMark c || c = '?') then 0
    else pieceLength bracketed cs + 1

/-- The line ends among the spaces at the head of a text, up to a mark that separates
documents, and how many characters there are. -/
def plainBreaks : List Char → List Char × Nat
  | [] => ([], 0)
  | c :: cs =>
    if c = ' ' then
      let (breaks, n) := plainBreaks cs
      (breaks, n + 1)
    else if isBreak c then
      if startsBoundary cs then ([c], 1)
      else
        let (breaks, n) := plainBreaks cs
        (c :: breaks, n + 1)
    else ([], 0)

/-- What a line end and those after it stand for. -/
def folded (first : Char) (more : List Char) : List Char :=
  if first ≠ '\n' then first :: more
  else if more.isEmpty then [' ']
  else more

/-- What the gap after a piece of plain text stands for, and the place behind it. -/
def plainGap (p : Cursor) : List Char × Cursor :=
  let spaces := p.rest.takeWhile (· = ' ')
  let p := p.advance spaces.length
  match p.rest with
  | [] => (spaces, p)
  | c :: _ =>
    if isBreak c then
      let p := p.advance 1
      if p.atBoundary then ([], p)
      else
        let (breaks, n) := plainBreaks p.rest
        (folded c breaks, p.advance n)
    else (spaces, p)

/-- Plain text and the place behind it. Its further lines start at the column `margin` or
to the right of it, except between brackets. -/
def plainText (bracketed : Bool) (margin : Nat) (p : Cursor) : Nat → List Char × Cursor
  | 0 => ([], p)
  | fuel + 1 =>
    let n := pieceLength bracketed p.rest
    if n = 0 then ([], p)
    else
      let piece := p.rest.take n
      let (gap, q) := plainGap (p.advance n).stale
      if gap.isEmpty || q.rest.head? = some '#' || q.atBoundary ||
          (!bracketed && decide (q.column < margin)) then (piece, q)
      else
        match plainText bracketed margin q fuel with
        | ([], q) => (piece, q)
        | (more, q) => (piece ++ gap ++ more, q)

/-- The line ends among the blanks at the head of quoted text, and how many characters
there are. Fails at a mark that separates documents. -/
def quotedBreaks (atStart : Bool) : List Char → Result (List Char × Nat)
  | [] => .ok ([], 0)
  | c :: cs =>
    if atStart && startsBoundary (c :: cs) then malformed
    else if isBreak c then do
      let (breaks, n) ← quotedBreaks true cs
      return (c :: breaks, n + 1)
    else if startsGap (c :: cs) then do
      let (breaks, n) ← quotedBreaks false cs
      return (breaks, n + 1)
    else .ok ([], 0)

/-- What a gap in quoted text stands for, and its length. -/
def quotedGap (cs : List Char) : Result (List Char × Nat) :=
  let blanks := cs.takeWhile fun c => c = ' ' || c = '\t'
  match cs.drop blanks.length with
  | [] => malformed
  | c :: rest =>
    if isBreak c then do
      let (breaks, n) ← quotedBreaks true rest
      return (folded c breaks, blanks.length + 1 + n)
    else .ok (blanks, blanks.length)

def shortEscapes : List (Char × Char) := [
  ('0', '\x00'), ('a', '\x07'), ('b', '\x08'), ('t', '\t'), ('\t', '\t'), ('n', '\n'),
  ('v', '\x0b'), ('f', '\x0c'), ('r', '\r'), ('e', '\x1b'), (' ', ' '), ('"', '"'),
  ('\\', '\\'), ('/', '/'), ('N', '\u0085'), ('_', '\u00a0'), ('L', '\u2028'), ('P', '\u2029')]

/-- The escapes that give a code point, and their counts of digits. -/
def codeEscapes : List (Char × Nat) := [('x', 2), ('u', 4), ('U', 8)]

/-- The character with a code. Those codes that are only halves of others have none of their
own, and give the replacement character. -/
def charOfCode (n : Nat) : Result Char :=
  if n.isValidChar then .ok (Char.ofNat n)
  else if n < 0x110000 then .ok '\ufffd'
  else if n < Nat.pow 2 31 then .error .noSuchCharacter
  else .error .beyondRange

/-- What stands after a backslash, as the text it means and its length. -/
def escaped : List Char → Result (List Char × Nat)
  | [] => malformed
  | c :: cs =>
    match shortEscapes.lookup c, codeEscapes.lookup c with
    | some meant, _ => .ok ([meant], 1)
    | none, some digits =>
      let ds := cs.take digits
      if ds.length = digits && ds.all (fun d => (hexDigit? d).isSome) then do
        return ([← charOfCode (valueInBase 16 ds)], digits + 1)
      else malformed
    | none, none =>
      if isBreak c then do
        let (breaks, n) ← quotedBreaks true cs
        return (breaks, n + 1)
      else malformed

/-- The text up to the closing quote, and the place behind that. -/
def quotedText (quote : Char) (p : Cursor) : Nat → Result (List Char × Cursor)
  | 0 => malformed
  | fuel + 1 => do
    let (text, length) ← match p.rest with
      | [] => malformed
      | c :: cs =>
        if c = quote then
          if quote = '\'' && cs.head? = some quote then pure ([quote], 2)
          else return ([], p.step.stale)
        else if startsGap p.rest then quotedGap p.rest
        else if c = '\\' && quote = '"' then do
          let (text, n) ← escaped cs
          pure (text, n + 1)
        else pure ([c], 1)
    let (more, q) ← quotedText quote (p.advance length) fuel
    return (text ++ more, q)

end Yaml
end PatternLoom
