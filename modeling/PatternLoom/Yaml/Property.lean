import PatternLoom.Text.Digit
import PatternLoom.Yaml.Cursor
import PatternLoom.Yaml.Token

/-! What a document says about its nodes: their anchors and their tags, and the directives
that name families of tags. -/

namespace PatternLoom
namespace Yaml

def isNameChar (c : Char) : Bool := c.isAlphanum || c = '-' || c = '_'

/-- The characters of tags apart from percent signs, which start an escape. -/
def isTagChar (c : Char) : Bool := c.isAlphanum || "-;/?:@&=+$,_.!~*'()[]".toList.contains c

/-- Whether a text starts with the end of a line or a space, or with nothing at all. -/
def startsSpaceOrEnd (cs : List Char) : Bool := cs.head?.all fun c => c = ' ' || isBreak c

def anchorName (p : Cursor) : Option (List Char × Cursor) :=
  let name := p.rest.takeWhile isNameChar
  let q := p.advance name.length
  if !name.isEmpty && (startsGap q.rest || (q.rest.head?.any ("?:,]\x7d%@\x60".toList.contains ·))) then
    some (name, q.stale)
  else none

/-- The bytes that escapes at the head of a text stand for, and what follows them. -/
def escapedBytes : List Char → Option (List UInt8 × List Char)
  | '%' :: c :: d :: cs => do
    let byte := UInt8.ofNat ((← hexDigit? c) * 16 + (← hexDigit? d))
    let (bytes, rest) ← escapedBytes cs
    return (byte :: bytes, rest)
  | '%' :: _ => none
  | cs => some ([], cs)

/-- The text of a tag, with its escapes resolved, and what follows it. -/
def tagText (cs : List Char) : Nat → Option (List Char × List Char)
  | 0 => none
  | fuel + 1 =>
    match cs with
    | '%' :: _ => do
      let (bytes, cs) ← escapedBytes cs
      let meant ← String.fromUTF8? ⟨bytes.toArray⟩
      let (more, rest) ← tagText cs fuel
      return (meant.toList ++ more, rest)
    | c :: cs' =>
      if isTagChar c then do
        let (more, rest) ← tagText cs' fuel
        return (c :: more, rest)
      else some ([], cs)
    | [] => some ([], [])

/-- The text of a tag, which has at least one character. -/
def someTagText (cs : List Char) : Option (List Char × List Char) := do
  let (text, rest) ← tagText cs (cs.length + 1)
  if text.isEmpty then none else return (text, rest)

/-- The handle of a family of tags: an exclamation mark, or a name between two. -/
def familyHandle : List Char → Option (List Char × List Char)
  | '!' :: cs =>
    if cs.head? = some ' ' then some (['!'], cs)
    else
      let name := cs.takeWhile isNameChar
      match cs.drop name.length with
      | '!' :: rest => some ('!' :: name ++ ['!'], rest)
      | _ => none
  | _ => none

def writtenTag (cs : List Char) : Option (WrittenTag × List Char) := do
  let (tag, rest) ← match cs with
    | '!' :: '<' :: cs =>
      match ← someTagText cs with
      | (text, '>' :: rest) => pure (⟨none, text⟩, rest)
      | _ => none
    | '!' :: cs =>
      if startsGap cs then pure (⟨none, ['!']⟩, cs)
      else
        let (handle, rest) ←
          if (cs.takeWhile fun c => c ≠ ' ' && !isBreak c).contains '!' then
            familyHandle ('!' :: cs)
          else pure (['!'], cs)
        let (text, rest) ← someTagText rest
        pure (⟨some handle, text⟩, rest)
    | _ => none
  if startsSpaceOrEnd rest then return (tag, rest) else none

def tagAt (p : Cursor) : Option (WrittenTag × Cursor) := do
  let (tag, rest) ← writtenTag p.rest
  return (tag, (p.advance (p.rest.length - rest.length)).stale)

def dropSpaces (cs : List Char) : List Char := cs.dropWhile (· = ' ')

/-- Two numbers with a point between them, of which the first counts. -/
def versionText (cs : List Char) : Option (Directive × List Char) :=
  let major := cs.takeWhile isAsciiDigit
  match cs.drop major.length with
  | '.' :: rest =>
    if !major.isEmpty && (rest.head?.any isAsciiDigit) then
      some (.version (valueInBase 10 major), rest.dropWhile isAsciiDigit)
    else none
  | _ => none

/-- A handle and the start of the tags of its family. -/
def familyText (cs : List Char) : Option (Directive × List Char) := do
  let (handle, rest) ← familyHandle cs
  if rest.head? = some ' ' then
    let (tagStart, rest) ← someTagText (dropSpaces rest)
    return (.family handle tagStart, rest)
  else none

/-- A directive from behind its percent sign to the end of its line. -/
def directiveAt (p : Cursor) : Option (Directive × Cursor) := do
  let name := p.rest.takeWhile isNameChar
  let rest := p.rest.drop name.length
  let arguments := dropSpaces rest
  if !name.isEmpty && startsSpaceOrEnd rest then
    let (directive, rest) ←
      if name = "YAML".toList then versionText arguments
      else if name = "TAG".toList then familyText arguments
      else pure (.unknown, arguments.dropWhile (!isBreak ·))
    if startsSpaceOrEnd rest then
      let n ← emptyLine? false rest
      return (directive, (p.advance (p.rest.length - rest.length + n)).stale)
    else none
  else none

end Yaml
end PatternLoom
