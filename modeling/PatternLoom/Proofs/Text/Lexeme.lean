import Mathlib
import PatternLoom.Text.Blank
import PatternLoom.Text.Digit
import PatternLoom.Text.Literal

/-! Reading program text. A text falls into lexemes: comments, which run to the end of their
line, quoted texts with the escapes of JSON, brackets, commas and other signs. A quoted text
reads as what was quoted, whatever that is. -/

namespace PatternLoom

inductive Lexeme where
  | comment (text : List Char)
  /-- The text between the quotes, with its escapes read. -/
  | quoted (text : List Char)
  | opening
  | closing
  | comma
  | sign (c : Char)
  deriving DecidableEq

namespace Lexeme

def isBracket : Lexeme → Bool
  | opening | closing => true
  | _ => false

def quoted? : Lexeme → Option (List Char)
  | quoted text => some text
  | _ => none

end Lexeme

/-- Where a reader is: in the program, or in a comment or a quoted text after what was read of
it, or behind the backslash or in the digits of an escape. -/
inductive LexPlace where
  | code
  | comment (text : List Char)
  | quoted (text : List Char)
  | escape (text : List Char)
  | unit (text digits : List Char)

/-- What a character means outside of comments and quoted texts. -/
def marks (c : Char) : List Lexeme :=
  if isBlank c then []
  else if c = '(' then [.opening]
  else if c = ')' then [.closing]
  else if c = ',' then [.comma]
  else [.sign c]

/-- The character behind a backslash stands for one character, `u` apart. -/
def escapedChar? : Char → Option Char
  | '"' => some '"'
  | '\\' => some '\\'
  | '/' => some '/'
  | 'b' => some '\x08'
  | 'f' => some '\x0c'
  | 'n' => some '\n'
  | 'r' => some '\r'
  | 't' => some '\t'
  | _ => none

/-- The lexemes of the rest of a text. There are none if a quoted text does not end or has an
escape that is no character; half of a surrogate pair is none. -/
def lexFrom : LexPlace → List Char → Option (List Lexeme)
  | .code, [] => some []
  | .comment text, [] => some [.comment text]
  | _, [] => none
  | .code, '/' :: '/' :: cs => lexFrom (.comment []) cs
  | .code, c :: cs =>
    if c = '"' then lexFrom (.quoted []) cs else (lexFrom .code cs).map (marks c ++ ·)
  | .comment text, c :: cs =>
    if c = '\n' then (lexFrom .code cs).map (.comment text :: ·)
    else lexFrom (.comment (text ++ [c])) cs
  | .quoted text, c :: cs =>
    if c = '"' then (lexFrom .code cs).map (.quoted text :: ·)
    else if c = '\\' then lexFrom (.escape text) cs
    else if c.toNat < 0x20 then none
    else lexFrom (.quoted (text ++ [c])) cs
  | .escape text, c :: cs =>
    if c = 'u' then lexFrom (.unit text []) cs
    else match escapedChar? c with
      | some e => lexFrom (.quoted (text ++ [e])) cs
      | none => none
  | .unit text digits, c :: cs =>
    if (hexDigit? c).isNone then none
    else if digits.length < 3 then lexFrom (.unit text (digits ++ [c])) cs
    else if (valueInBase 16 (digits ++ [c])).isValidChar then
      lexFrom (.quoted (text ++ [Char.ofNat (valueInBase 16 (digits ++ [c]))])) cs
    else none

def lexemes (cs : List Char) : Option (List Lexeme) := lexFrom .code cs

/-- A text that has its lexemes whatever comes after it. -/
def Lexes (cs : List Char) (ls : List Lexeme) : Prop :=
  ∀ more, lexemes (cs ++ more) = (lexemes more).map (ls ++ ·)

/-- A character that is neither blank nor has a meaning of its own. -/
def IsSign (c : Char) : Prop :=
  isBlank c = false ∧ c ≠ '"' ∧ c ≠ '/' ∧ c ≠ '(' ∧ c ≠ ')' ∧ c ≠ ','

instance : DecidablePred IsSign := fun c =>
  inferInstanceAs (Decidable
    (isBlank c = false ∧ c ≠ '"' ∧ c ≠ '/' ∧ c ≠ '(' ∧ c ≠ ')' ∧ c ≠ ','))

def written (cs : List Char) : List Lexeme := cs.map .sign

attribute [local simp] lexFrom

section Reading

theorem lexFrom_code {c : Char} (hslash : c ≠ '/') (hquote : c ≠ '"') (cs : List Char) :
    lexFrom .code (c :: cs) = (lexFrom .code cs).map (marks c ++ ·) := by
  cases cs <;> simp [hslash, hquote]

theorem Lexes.read {cs : List Char} {ls : List Lexeme} (h : Lexes cs ls) :
    lexemes cs = some ls := by
  have hend := h []
  rw [List.append_nil] at hend
  rw [hend]
  simp [lexemes]

theorem lexes_nil : Lexes [] [] := fun more => by simp

theorem Lexes.append {cs ds : List Char} {ls ms : List Lexeme} (hc : Lexes cs ls)
    (hd : Lexes ds ms) : Lexes (cs ++ ds) (ls ++ ms) := by
  intro more
  rw [List.append_assoc, hc, hd, Option.map_map]
  congr 1
  funext rest
  exact (List.append_assoc _ _ _).symm

theorem lexes_char {c : Char} (hslash : c ≠ '/') (hquote : c ≠ '"') : Lexes [c] (marks c) :=
  fun more => lexFrom_code hslash hquote more

theorem lexes_signs {cs : List Char} (h : ∀ c ∈ cs, IsSign c) : Lexes cs (written cs) := by
  induction cs with
  | nil => exact lexes_nil
  | cons c cs ih =>
    obtain ⟨⟨hblank, hquote, hslash, hopen, hclose, hcomma⟩, hcs⟩ := List.forall_mem_cons.mp h
    have hmarks : marks c = [.sign c] := by simp [marks, hblank, hopen, hclose, hcomma]
    have hchar := lexes_char hslash hquote
    rw [hmarks] at hchar
    exact hchar.append (ih hcs)

theorem lexes_blanks {cs : List Char} (h : ∀ c ∈ cs, isBlank c = true) : Lexes cs [] := by
  induction cs with
  | nil => exact lexes_nil
  | cons c cs ih =>
    obtain ⟨hc, hcs⟩ := List.forall_mem_cons.mp h
    have hslash : c ≠ '/' := by
      rintro rfl
      exact absurd hc (by decide)
    have hquote : c ≠ '"' := by
      rintro rfl
      exact absurd hc (by decide)
    have hchar := lexes_char hslash hquote
    rw [marks, if_pos hc] at hchar
    exact hchar.append (ih hcs)

theorem lexFrom_comment {text : List Char} (h : '\n' ∉ text) (before more : List Char) :
    lexFrom (.comment before) (text ++ '\n' :: more) =
      (lexFrom .code more).map (.comment (before ++ text) :: ·) := by
  induction text generalizing before with
  | nil => simp
  | cons c text ih =>
    obtain ⟨hc, htext⟩ := not_or.mp (List.mem_cons.not.mp h)
    rw [List.cons_append, lexFrom, if_neg (Ne.symm hc), ih htext, List.append_assoc,
      List.singleton_append]

theorem lexes_comment {text : List Char} (h : '\n' ∉ text) :
    Lexes ('/' :: '/' :: (text ++ ['\n'])) [.comment text] := by
  intro more
  have hread := lexFrom_comment h [] more
  rw [List.nil_append] at hread
  rw [List.cons_append, List.cons_append, List.append_assoc, List.singleton_append, lexemes,
    lexFrom, hread]
  rfl

end Reading

section Quoting

theorem hexDigits_control : ∀ n < 0x20, (hexDigits 4 n).length = 4 ∧
    (hexDigits 4 n).all (fun c => (hexDigit? c).isSome) ∧ valueInBase 16 (hexDigits 4 n) = n := by
  decide

theorem lexFrom_control {c : Char} (h : c.toNat < 0x20) (text more : List Char) :
    lexFrom (.unit text []) (hexDigits 4 c.toNat ++ more) =
      lexFrom (.quoted (text ++ [c])) more := by
  obtain ⟨hlength, hhex, hvalue⟩ := hexDigits_control c.toNat h
  obtain ⟨d₁, d₂, d₃, d₄, hdigits⟩ := List.length_eq_four.mp hlength
  have hvalid : c.toNat.isValidChar := c.valid
  rw [hdigits] at hhex hvalue ⊢
  simp only [List.all_cons, List.all_nil, Bool.and_eq_true, Option.isSome_iff_ne_none] at hhex
  obtain ⟨h₁, h₂, h₃, h₄, _⟩ := hhex
  simp [h₁, h₂, h₃, h₄, hvalue, hvalid, Char.ofNat_toNat]

theorem lexFrom_escapeInLiteral (c : Char) (text more : List Char) :
    lexFrom (.quoted text) (escapeInLiteral c ++ more) = lexFrom (.quoted (text ++ [c])) more := by
  -- A short escape reads as the character it stands for, and only control characters have others.
  have hshort : ∀ {d e}, escapedChar? d = some e → d ≠ 'u' →
      lexFrom (.quoted text) ('\\' :: d :: more) = lexFrom (.quoted (text ++ [e])) more := by
    intro d e he hu
    simp [hu, he]
  unfold escapeInLiteral
  split_ifs with hquote hslash hfeed hreturn htab hback hform hcontrol
  · rw [hquote]
    exact hshort rfl (by decide)
  · rw [hslash]
    exact hshort rfl (by decide)
  · rw [hfeed]
    exact hshort rfl (by decide)
  · rw [hreturn]
    exact hshort rfl (by decide)
  · rw [htab]
    exact hshort rfl (by decide)
  · rw [hback]
    exact hshort rfl (by decide)
  · rw [hform]
    exact hshort rfl (by decide)
  · have hunit : lexFrom (.quoted text) ('\\' :: 'u' :: (hexDigits 4 c.toNat ++ more)) =
        lexFrom (.unit text []) (hexDigits 4 c.toNat ++ more) := by
      simp
    exact hunit.trans (lexFrom_control hcontrol text more)
  · simp [hquote, hslash, hcontrol]

theorem lexFrom_escaped (cs text more : List Char) :
    lexFrom (.quoted text) (cs.flatMap escapeInLiteral ++ '"' :: more) =
      (lexFrom .code more).map (.quoted (text ++ cs) :: ·) := by
  induction cs generalizing text with
  | nil => simp
  | cons c cs ih =>
    rw [List.flatMap_cons, List.append_assoc, lexFrom_escapeInLiteral, ih, List.append_assoc,
      List.singleton_append]

/-- A literal reads as the text it was made from. -/
theorem lexes_literal (s : String) : Lexes (literal s).toList [.quoted s.toList] := by
  intro more
  have hread := lexFrom_escaped s.toList [] more
  rw [literal, String.toList_ofList, lexemes, List.cons_append, List.cons_append,
    List.append_assoc, List.singleton_append, lexFrom, if_pos rfl, hread]
  · rfl
  · nofun

end Quoting

end PatternLoom
