import Mathlib
import PatternLoom.Proofs.Decimal.Printed
import PatternLoom.Proofs.Tempo.Directive
import PatternLoom.Text.Blank
import PatternLoom.Text.Literal

/-! Lines of program texts. A comment ends with its line, so what is written there has to keep to
one line, and there are four characters that end one. -/

namespace PatternLoom

/-- The characters that end a line of a program, and with it a comment. -/
def isLineBreak (c : Char) : Bool :=
  let n := c.toNat
  n == 0x0a || n == 0x0d || n == 0x2028 || n == 0x2029

/-- The lines of a text, without what ends them. -/
def linesOf (cs : List Char) : List (List Char) := cs.splitOnP isLineBreak

/-- A text that has no line break. -/
def OneLine (s : String) : Prop := ∀ c ∈ s.toList, isLineBreak c = false

instance : DecidablePred OneLine := fun s =>
  decidable_of_iff (s.toList.all (!isLineBreak ·)) (by simp [OneLine])

theorem mem_intercalate {c : Char} {mark : List Char} {texts : List (List Char)}
    (h : c ∈ mark.intercalate texts) : c ∈ mark ∨ ∃ text ∈ texts, c ∈ text := by
  induction texts with
  | nil => simp at h
  | cons text texts ih =>
    cases texts with
    | nil => exact .inr ⟨text, by simp, by simpa using h⟩
    | cons next texts =>
      rw [List.intercalate_cons_cons, List.append_assoc, List.mem_append, List.mem_append] at h
      rcases h with h | h | h
      · exact .inr ⟨text, by simp, h⟩
      · exact .inl h
      · rcases ih h with h | ⟨text', hmem, h⟩
        · exact .inl h
        · exact .inr ⟨text', List.mem_cons_of_mem _ hmem, h⟩

theorem mem_intercalate_of_mem {c : Char} (mark : List Char) {texts : List (List Char)}
    {text : List Char} (h : text ∈ texts) (hc : c ∈ text) : c ∈ mark.intercalate texts := by
  induction texts with
  | nil => cases h
  | cons first texts ih =>
    cases texts with
    | nil =>
      rw [List.mem_singleton.mp h] at hc
      simpa using hc
    | cons next texts =>
      rw [List.intercalate_cons_cons, List.append_assoc]
      rcases List.mem_cons.mp h with rfl | h
      · exact List.mem_append_left _ hc
      · exact List.mem_append_right _ (List.mem_append_right _ (ih h))

section Splitting

theorem linesOf_break (before after : List Char) :
    linesOf (before ++ '\n' :: after) = linesOf before ++ linesOf after :=
  List.splitOnP_append_cons before after (by decide)

theorem linesOf_line {cs : List Char} (h : ∀ c ∈ cs, isLineBreak c = false) : linesOf cs = [cs] :=
  List.splitOnP_eq_singleton h

theorem length_linesOf (cs : List Char) : (linesOf cs).length = cs.countP isLineBreak + 1 := by
  induction cs with
  | nil => rfl
  | cons c cs ih =>
    rw [linesOf] at ih ⊢
    rw [List.splitOnP_cons_eq_if_modifyHead, List.countP_cons]
    by_cases hc : isLineBreak c
    · rw [if_pos hc, if_pos hc, List.length_cons, ih]
    · rw [if_neg hc, if_neg hc, List.length_modifyHead, ih]

theorem length_linesOf_eq_one {cs : List Char} :
    (linesOf cs).length = 1 ↔ ∀ c ∈ cs, isLineBreak c = false := by
  simp [length_linesOf, List.countP_eq_zero]

/-- Lines that are each ended are followed by those of what stands behind them. -/
theorem linesOf_flatMap (texts : List (List Char)) (after : List Char) :
    linesOf (texts.flatMap (· ++ ['\n']) ++ after) = texts.flatMap linesOf ++ linesOf after := by
  induction texts with
  | nil => rfl
  | cons text texts ih =>
    have hsplit := linesOf_break text (texts.flatMap (· ++ ['\n']) ++ after)
    rw [ih, ← List.append_assoc] at hsplit
    rw [List.flatMap_cons, List.flatMap_cons, ← hsplit]
    simp only [List.append_assoc, List.cons_append, List.nil_append]

theorem flatMap_linesOf {texts : List (List Char)}
    (h : ∀ text ∈ texts, ∀ c ∈ text, isLineBreak c = false) : texts.flatMap linesOf = texts := by
  induction texts with
  | nil => rfl
  | cons text texts ih =>
    obtain ⟨htext, htexts⟩ := List.forall_mem_cons.mp h
    rw [List.flatMap_cons, linesOf_line htext, ih htexts, List.singleton_append]

end Splitting

section OneLine

variable {s t : String}

/-- A text that is written out is read off character by character. -/
theorem oneLine_ofList {cs : List Char} (h : cs.all (!isLineBreak ·) = true) :
    OneLine (String.ofList cs) := by
  intro c hc
  rw [String.toList_ofList] at hc
  simpa using List.all_eq_true.mp h c hc

@[simp] theorem oneLine_append : OneLine (s ++ t) ↔ OneLine s ∧ OneLine t := by
  unfold OneLine
  rw [String.toList_append, List.forall_mem_append]

theorem OneLine.append (hs : OneLine s) (ht : OneLine t) : OneLine (s ++ t) :=
  oneLine_append.mpr ⟨hs, ht⟩

theorem oneLine_intercalate {mark : String} {texts : List String} (hmark : OneLine mark)
    (h : ∀ text ∈ texts, OneLine text) : OneLine (mark.intercalate texts) := by
  intro c hc
  rw [String.toList_intercalate] at hc
  rcases mem_intercalate hc with hc | ⟨cs, hcs, hc⟩
  · exact hmark c hc
  · obtain ⟨text, htext, rfl⟩ := List.mem_map.mp hcs
    exact h text htext c hc

theorem oneLine_intercalate_iff {mark : String} {texts : List String} (hmark : OneLine mark) :
    OneLine (mark.intercalate texts) ↔ ∀ text ∈ texts, OneLine text := by
  refine ⟨fun h text htext c hc => h c ?_, oneLine_intercalate hmark⟩
  rw [String.toList_intercalate]
  exact mem_intercalate_of_mem _ (List.mem_map_of_mem htext) hc

theorem isBlank_of_isLineBreak {c : Char} (h : isLineBreak c = true) : isBlank c = true := by
  simp only [isLineBreak, Bool.or_eq_true, beq_iff_eq] at h
  rcases h with ((h | h) | h) | h <;> simp [isBlank, h]

theorem isLineBreak_eq_false {c : Char} (h : isBlank c = false) : isLineBreak c = false :=
  Bool.eq_false_iff.mpr fun hbreak => Bool.eq_false_iff.mp h (isBlank_of_isLineBreak hbreak)

theorem isLineBreak_eq_false_of_isAsciiDigit {c : Char} (h : isAsciiDigit c = true) :
    isLineBreak c = false :=
  isLineBreak_eq_false (Tempo.isBlank_eq_false_of_isAsciiDigit h)

theorem oneLine_toString (n : Int) : OneLine (toString n) := by
  intro c hc
  rcases mem_toString_int hc with rfl | hdigit
  · decide
  · exact isLineBreak_eq_false_of_isAsciiDigit hdigit

theorem oneLine_natToString (n : Nat) : OneLine (toString n) := oneLine_toString n

theorem isLineBreak_of_mem_toDigits {n : Nat} {c : Char} (h : c ∈ Nat.toDigits 16 n) :
    isLineBreak c = false := by
  have hdigit : ∀ d < 16, isLineBreak (Nat.digitChar d) = false := by decide
  induction n using Nat.strongRecOn with
  | ind n ih =>
    rw [Nat.toDigits_eq_if (by decide)] at h
    split at h
    · rename_i hlt
      rw [List.mem_singleton.mp h]
      exact hdigit n hlt
    · rcases List.mem_append.mp h with h | h
      · exact ih (n / 16) (Nat.div_lt_self (by omega) (by decide)) h
      · rw [List.mem_singleton.mp h]
        exact hdigit _ (Nat.mod_lt n (by decide))

theorem isLineBreak_of_mem_hexDigits {width n : Nat} {c : Char} (h : c ∈ hexDigits width n) :
    isLineBreak c = false := by
  rcases List.mem_append.mp h with h | h
  · rw [List.eq_of_mem_replicate h]
    decide
  · exact isLineBreak_of_mem_toDigits h

theorem isLineBreak_escapeInLiteral {c : Char} (h : isLineBreak c = false) :
    ∀ d ∈ escapeInLiteral c, isLineBreak d = false := by
  unfold escapeInLiteral
  split_ifs
  rotate_right 2
  · exact List.forall_mem_cons.mpr ⟨by decide,
      List.forall_mem_cons.mpr ⟨by decide, fun _ => isLineBreak_of_mem_hexDigits⟩⟩
  · simpa using h
  all_goals
    exact List.forall_mem_cons.mpr ⟨by decide, List.forall_mem_singleton.mpr (by decide)⟩

/-- A quoted text keeps to the line if the text does. -/
theorem OneLine.literal (h : OneLine s) : OneLine (literal s) := by
  intro c hc
  rw [PatternLoom.literal, String.toList_ofList, List.cons_append, List.mem_cons,
    List.mem_append, List.mem_flatMap, List.mem_singleton] at hc
  rcases hc with rfl | ⟨d, hd, hc⟩ | rfl
  · decide
  · exact isLineBreak_escapeInLiteral (h d hd) c hc
  · decide

theorem isLineBreak_of_isPrintable {c : Char} (h : isPrintable c = true) :
    isLineBreak c = false := by
  refine Bool.eq_false_iff.mpr fun hbreak => ?_
  simp only [isLineBreak, Bool.or_eq_true, beq_iff_eq] at hbreak
  rcases hbreak with ((hn | hn) | hn) | hn
  all_goals
    rw [isPrintable, hn] at h
    exact absurd h (by decide +kernel)

theorem isLineBreak_showChar {quote c : Char} (hquote : isLineBreak quote = false) :
    ∀ d ∈ showChar quote c, isLineBreak d = false := by
  have hslash : isLineBreak '\\' = false := by decide
  have hescaped : ∀ {letter : Char} {digits : List Char}, isLineBreak letter = false →
      (∀ d ∈ digits, isLineBreak d = false) →
      ∀ d ∈ '\\' :: letter :: digits, isLineBreak d = false := fun hletter hdigits =>
    List.forall_mem_cons.mpr ⟨hslash, List.forall_mem_cons.mpr ⟨hletter, hdigits⟩⟩
  unfold showChar
  split_ifs with hself _ _ _ hprintable
  · rw [Bool.or_eq_true, decide_eq_true_eq, decide_eq_true_eq] at hself
    refine hescaped ?_ (List.forall_mem_nil _)
    rcases hself with rfl | rfl
    · exact hquote
    · exact hslash
  · exact hescaped (by decide) (List.forall_mem_nil _)
  · exact hescaped (by decide) (List.forall_mem_nil _)
  · exact hescaped (by decide) (List.forall_mem_nil _)
  · exact List.forall_mem_singleton.mpr (isLineBreak_of_isPrintable hprintable)
  · exact hescaped (by decide) fun _ => isLineBreak_of_mem_hexDigits
  · exact hescaped (by decide) fun _ => isLineBreak_of_mem_hexDigits
  · exact hescaped (by decide) fun _ => isLineBreak_of_mem_hexDigits

/-- A text that is shown keeps to the line whatever it is. -/
theorem oneLine_shown (s : String) : OneLine (shown s) := by
  have hquoted : ∀ {quote : Char} {cs : List Char}, isLineBreak quote = false →
      ∀ d ∈ quote :: cs.flatMap (showChar quote) ++ [quote], isLineBreak d = false := by
    intro quote cs hquote d hd
    rw [List.cons_append, List.mem_cons, List.mem_append, List.mem_flatMap,
      List.mem_singleton] at hd
    rcases hd with rfl | ⟨c, _, hd⟩ | rfl
    · exact hquote
    · exact isLineBreak_showChar hquote d hd
    · exact hquote
  intro c hc
  rw [shown, String.toList_ofList] at hc
  refine hquoted ?_ c hc
  split <;> decide

end OneLine

end PatternLoom
