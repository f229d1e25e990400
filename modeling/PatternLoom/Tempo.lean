import PatternLoom.Decimal.Numeral
import PatternLoom.Binary64.Arithmetic

/-! Tempo directives in program text: `setcps(x)` in cycles a second and `setbpm(x)` in
beats a minute, at four beats to the cycle. A directive is recognised wherever it stands,
in any case, and `s` also in its long form. -/

namespace PatternLoom
namespace Tempo

def sameLetter (letter c : Char) : Bool :=
  c = letter || c.toLower = letter || (letter = 's' && c = 'ſ')

def afterWord : List Char → List Char → Option (List Char)
  | [], cs => some cs
  | _ :: _, [] => none
  | letter :: word, c :: cs => if sameLetter letter c then afterWord word cs else none

def cpsWord : List Char := "setcps(".toList
def bpmWord : List Char := "setbpm(".toList

/-- A number at the head of a text: digits with a point before, between or without them. -/
def number? (cs : List Char) : Option (Binary64 × List Char) :=
  let whole := cs.takeWhile isAsciiDigit
  match cs.dropWhile isAsciiDigit with
  | '.' :: more =>
    let fraction := more.takeWhile isAsciiDigit
    if fraction.isEmpty then none
    else some (Decimal.pointed whole fraction, more.dropWhile isAsciiDigit)
  | rest => if whole.isEmpty then none else some (Decimal.pointed whole [], rest)

/-- A call at the head of a text: the number in it, and the text after it. -/
def call? (word cs : List Char) : Option (Binary64 × List Char) := do
  let (x, rest) ← number? (trimLeft (← afterWord word cs))
  match trimLeft rest with
  | ')' :: rest => some (x, rest)
  | _ => none

def dropSemicolon : List Char → List Char
  | ';' :: rest => rest
  | rest => rest

/-- The end of a directive on its line. -/
def dropEnd (cs : List Char) : List Char :=
  dropSemicolon (cs.dropWhile fun c => c = ' ' || c = '\t')

/-- The end of a directive, with all blanks around it. -/
def dropStatementEnd (cs : List Char) : List Char := trimLeft (dropSemicolon (trimLeft cs))

/-- The leftmost call in a text: what stands before it, its number, and what stands after. -/
def findCall (word : List Char) : List Char → Option (List Char × Binary64 × List Char)
  | [] => none
  | c :: cs =>
    match call? word (c :: cs) with
    | some (x, rest) => some ([], x, rest)
    | none => (findCall word cs).map fun (before, x, after) => (c :: before, x, after)

def ofBeats (bpm : Binary64) : Binary64 := bpm / 240

/-- The cycles a second that a program sets, one if it sets none. -/
def baseCycles (code : String) : Binary64 :=
  match findCall cpsWord code.toList with
  | some (_, x, _) => x
  | none =>
    match findCall bpmWord code.toList with
    | some (_, x, _) => ofBeats x
    | none => 1

/-- A tempo times a speed; a tempo given in beats stands in for that of the program. -/
def effectiveCycles (base speed : Binary64) (bpm : Option Binary64) : Binary64 :=
  match bpm with
  | some bpm => ofBeats bpm * speed
  | none => base * speed

def statement (cycles : Binary64) : List Char :=
  "setcps(".toList ++ (Decimal.fixed 3 cycles).toList ++ ");".toList

/-- The text with its leftmost directive of one word replaced. -/
def replaceFirst (word new cs : List Char) : Option (List Char) :=
  (findCall word cs).map fun (before, _, after) => before ++ new ++ dropEnd after

/-- The text with its tempo set: in the first `setcps`, else in the first `setbpm`, else on
a line in front. -/
def charsWithCycles (cs : List Char) (cycles : Binary64) : List Char :=
  match replaceFirst cpsWord (statement cycles) cs with
  | some text => text
  | none =>
    match replaceFirst bpmWord (statement cycles) cs with
    | some text => text
    | none =>
      if (trim cs).isEmpty then statement cycles else statement cycles ++ '\n' :: cs

def setCycles (code : String) (cycles : Binary64) : String :=
  String.ofList (charsWithCycles code.toList cycles)

theorem length_afterWord {word cs rest : List Char} (h : afterWord word cs = some rest) :
    rest.length + word.length = cs.length := by
  induction word generalizing cs with
  | nil => simp_all [afterWord]
  | cons letter word ih =>
    cases cs with
    | nil => simp [afterWord] at h
    | cons c cs =>
      by_cases hc : sameLetter letter c
      · have := ih (by simpa [afterWord, hc] using h)
        simp only [List.length_cons]
        omega
      · simp [afterWord, hc] at h

theorem length_dropWhile_le (p : Char → Bool) (cs : List Char) :
    (cs.dropWhile p).length ≤ cs.length := (List.dropWhile_sublist p).length_le

theorem length_number? {cs rest : List Char} {x : Binary64} (h : number? cs = some (x, rest)) :
    rest.length ≤ cs.length := by
  unfold number? at h
  have hd := length_dropWhile_le isAsciiDigit cs
  dsimp only at h
  split at h
  · rename_i more he
    rw [he] at hd
    have hm := length_dropWhile_le isAsciiDigit more
    split at h
    · simp at h
    · simp only [Option.some.injEq, Prod.mk.injEq] at h
      rw [← h.2]
      simp only [List.length_cons] at hd
      omega
  · split at h
    · simp at h
    · simp only [Option.some.injEq, Prod.mk.injEq] at h
      rw [← h.2]
      exact hd

theorem length_call? {word cs rest : List Char} {x : Binary64}
    (h : call? word cs = some (x, rest)) : rest.length < cs.length := by
  unfold call? at h
  cases ha : afterWord word cs with
  | none => simp [ha] at h
  | some inside =>
    cases hn : number? (trimLeft inside) with
    | none => simp [ha, hn] at h
    | some found =>
      obtain ⟨y, afterNumber⟩ := found
      simp only [ha, hn, Option.bind_eq_bind, Option.bind_some] at h
      split at h
      · rename_i tail he
        simp only [Option.some.injEq, Prod.mk.injEq] at h
        have h₁ := length_afterWord ha
        have h₂ := length_dropWhile_le isBlank inside
        have h₃ := length_number? hn
        have h₄ := length_dropWhile_le isBlank afterNumber
        simp only [trimLeft] at h₃ he
        rw [he] at h₄
        rw [← h.2]
        simp only [List.length_cons] at h₄
        omega
      · simp at h

theorem length_dropStatementEnd_le (cs : List Char) : (dropStatementEnd cs).length ≤ cs.length := by
  have h₁ := length_dropWhile_le isBlank cs
  have h₂ := length_dropWhile_le isBlank (dropSemicolon (trimLeft cs))
  have h₃ : (dropSemicolon (trimLeft cs)).length ≤ (trimLeft cs).length := by
    unfold dropSemicolon
    split
    · rename_i h
      simp [h]
    · exact Nat.le_refl _
  simp only [dropStatementEnd, trimLeft] at *
  omega

def removeAll (word : List Char) (cs : List Char) : List Char :=
  match cs with
  | [] => []
  | c :: rest =>
    match _h : call? word (c :: rest) with
    | some (_, after) => removeAll word (dropStatementEnd after)
    | none => c :: removeAll word rest
termination_by cs.length
decreasing_by
  · have h₁ := length_call? _h
    have h₂ := length_dropStatementEnd_le after
    omega
  · simp

/-- The text without tempo statements, for players that set the tempo themselves. -/
def strip (code : String) : String :=
  String.ofList (trim (removeAll bpmWord (removeAll cpsWord code.toList)))

/-- The text after a leading `setcps` call, whatever its argument. -/
def afterLeadingCall (cs : List Char) : Option (List Char) := do
  let inside ← afterWord cpsWord (trimLeft cs)
  match inside.dropWhile (· ≠ ')') with
  | ')' :: rest => some (trimLeft (dropSemicolon rest))
  | _ => none

/-- The text without a leading `setcps` call and without blanks around it. -/
def stripLeading (code : String) : String :=
  String.ofList (trim ((afterLeadingCall code.toList).getD code.toList))

end Tempo
end PatternLoom
