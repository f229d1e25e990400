import Mathlib
import PatternLoom.Proofs.Arrangement.Shape
import PatternLoom.Proofs.Program.Reading

/-! Reading arrangements. Blanks at the start of a line change nothing for a reader, since a line
never ends in a quoted text, so an arrangement reads as its sections do, each in brackets. -/

namespace PatternLoom

section Indenting

variable {margin : List Char} (hmargin : ∀ c ∈ margin, isBlank c = true)

theorem lexFrom_code_of_head {c : Char} {cs : List Char} (hquote : c ≠ '"')
    (hslash : c = '/' → cs.head? ≠ some '/') :
    lexFrom .code (c :: cs) = (lexFrom .code cs).map (marks c ++ ·) := by
  by_cases hc : c = '/'
  · cases cs with
    | nil => simp [lexFrom, hquote]
    | cons d cs =>
      have hd : d ≠ '/' := by simpa using hslash hc
      simp [lexFrom, hquote, hd]
  · exact lexFrom_code hc hquote cs

/-- Texts that read the same do so behind a character, unless it begins a comment. -/
theorem lexFrom_cons_congr {place : LexPlace} {c : Char} {xs ys : List Char}
    (h : ∀ place, lexFrom place xs = lexFrom place ys)
    (hslash : place = .code → c = '/' → xs.head? ≠ some '/' ∧ ys.head? ≠ some '/') :
    lexFrom place (c :: xs) = lexFrom place (c :: ys) := by
  cases place with
  | code =>
    by_cases hquote : c = '"'
    · simp [lexFrom, hquote, h]
    · rw [lexFrom_code_of_head hquote fun hc => (hslash rfl hc).1,
        lexFrom_code_of_head hquote fun hc => (hslash rfl hc).2, h]
  | comment text => simp only [lexFrom, h]
  | quoted text => simp only [lexFrom, h]
  | escape text => simp only [lexFrom, h]
  | unit text digits => simp only [lexFrom, h]

include hmargin

theorem lexFrom_feed (place : LexPlace) (cs : List Char) :
    lexFrom place ('\n' :: (margin ++ cs)) = lexFrom place ('\n' :: cs) := by
  have hskip : lexFrom .code (margin ++ cs) = lexFrom .code cs := by
    have hlexes := lexes_blanks hmargin cs
    simpa [lexemes] using hlexes
  have hfeed : marks '\n' = [] := by decide
  cases place with
  | code => rw [lexFrom_code (by decide) (by decide), lexFrom_code (by decide) (by decide), hskip]
  | comment text => simp only [lexFrom, if_true, hskip]
  | quoted text => rfl
  | escape text => rfl
  | unit text digits => rfl

/-- A margin at the start of every line is blank to a reader. -/
theorem lexFrom_indented (place : LexPlace) (cs more : List Char) :
    lexFrom place (cs.flatMap (indented margin) ++ more) = lexFrom place (cs ++ more) := by
  -- Two slashes are read at once, so the induction is on the length.
  induction hlength : cs.length using Nat.strongRecOn generalizing place cs with
  | _ n ih =>
    cases cs with
    | nil => rfl
    | cons c cs =>
      have hrest : ∀ place, lexFrom place (cs.flatMap (indented margin) ++ more) =
          lexFrom place (cs ++ more) := fun place =>
        ih cs.length (by rw [← hlength, List.length_cons]; omega) place cs rfl
      rw [List.flatMap_cons, List.append_assoc, List.cons_append]
      by_cases hfeed : c = '\n'
      · have hslash : c ≠ '/' := by
          rw [hfeed]
          decide
        rw [indented, if_pos hfeed, hfeed, List.cons_append, lexFrom_feed hmargin, ← hfeed]
        exact lexFrom_cons_congr hrest fun _ hc => absurd hc hslash
      · rw [indented, if_neg hfeed, List.singleton_append]
        cases cs with
        | nil => rfl
        | cons d cs =>
          by_cases hcomment : place = .code ∧ c = '/' ∧ d = '/'
          · obtain ⟨rfl, rfl, rfl⟩ := hcomment
            have hshorter : cs.length < n := by
              simp only [List.length_cons] at hlength
              omega
            have hinside := ih cs.length hshorter (.comment []) cs rfl
            have hkept : indented margin '/' = ['/'] := if_neg (by decide)
            rw [List.flatMap_cons, hkept]
            exact hinside
          · refine lexFrom_cons_congr hrest fun hplace hc => ?_
            have hd : d ≠ '/' := fun hd => hcomment ⟨hplace, hc, hd⟩
            refine ⟨?_, by simpa using hd⟩
            rw [List.flatMap_cons, indented]
            split
            · exact nofun
            · simpa using hd

theorem lexes_indented {cs : List Char} {ls : List Lexeme} (h : Lexes cs ls) :
    Lexes (margin ++ cs.flatMap (indented margin)) ls := by
  intro more
  have hskip := lexes_blanks hmargin (cs.flatMap (indented margin) ++ more)
  rw [List.append_assoc, hskip, ← h more, lexemes, lexemes, lexFrom_indented hmargin]
  simp

end Indenting

section Sections

theorem ArrangedSection.expression_eq {s : ArrangedSection} {ls : List Lexeme}
    (h : IsArgument s.code.toList ls) : s.expression = "(" ++ s.code ++ ")" := by
  rw [expression, if_neg]
  intro hempty
  have hread := h.lexes.read
  rw [String.isEmpty_iff.mp hempty] at hread
  exact h.ne_nil (Option.some.inj hread).symm

theorem ArrangedSection.expression_isArgument {s : ArrangedSection} {ls : List Lexeme}
    (h : IsArgument s.code.toList ls) :
    IsArgument s.expression.toList (.opening :: (ls ++ [.closing])) := by
  have hopen : Lexes ['('] [.opening] := lexes_char (by decide) (by decide)
  have hclose : Lexes [')'] [.closing] := lexes_char (by decide) (by decide)
  have htext : s.expression.toList = '(' :: (s.code.toList ++ [')']) := by
    simp [expression_eq h]
  rw [htext]
  exact ⟨hopen.append (h.lexes.append hclose), whole_group h.whole.balanced, List.cons_ne_nil _ _⟩

/-- An arrangement reads as a sequence of its sections, in order and each in brackets. -/
theorem arrangedProgram_reads {bpm : Binary64} (hfinite : bpm.isFinite) (hpos : ¬ bpm ≤ 0)
    {sections : List ArrangedSection} (hne : sections ≠ []) {lss : List (List Lexeme)}
    (h : List.Forall₂ (fun s ls => IsArgument s.code.toList ls) sections lss) :
    ∃ ls, lexemes (arrangedProgram bpm sections).toList = some (headerLexemes bpm ++ ls) ∧
      Balanced (headerLexemes bpm ++ ls) ∧
      readCall "cat" ls = some (lss.map fun ls => .opening :: (ls ++ [.closing]), []) := by
  have hargs : List.Forall₂ IsArgument
      ((sections.map ArrangedSection.expression).map String.toList)
      (lss.map fun ls => .opening :: (ls ++ [.closing])) := by
    rw [List.map_map, List.forall₂_map_left_iff, List.forall₂_map_right_iff]
    exact h.imp fun s ls harg => ArrangedSection.expression_isArgument harg
  have hcomma : Lexes ",\n".toList [.comma] :=
    (lexes_char (by decide) (by decide)).append (lexes_blanks (by simp; decide))
  have hmargin : ∀ c ∈ List.replicate 2 ' ', isBlank c = true := by simp; decide
  have hlines := lexes_indented hmargin (lexes_intercalate hcomma (arguments_lexes hargs))
  have hfeed : Lexes ['\n'] [] := lexes_blanks (by simp; decide)
  have hinside := hfeed.append (hlines.append hfeed)
  rw [List.append_nil, List.nil_append] at hinside
  have hcat := isPart_called "cat" (isSign_of_all (by decide)) hinside
    (arguments_balanced hargs)
  have hheader := isPart_tempoHeader hfinite hpos
  have hcode := hheader.lexes.append (hfeed.append hcat.lexes)
  have hlss : lss.map (fun ls => Lexeme.opening :: (ls ++ [.closing])) ≠ [] := by
    rw [Ne, List.map_eq_nil_iff]
    rintro rfl
    exact hne (List.forall₂_nil_right_iff.mp h)
  have hread := @readCall_whole "cat" _ hlss (arguments_whole hargs)
  refine ⟨_, ?_, hheader.whole.balanced.append hcat.whole.balanced, hread⟩
  have htext : (arrangedSequence sections).toList = "cat".toList ++ '(' :: ('\n' ::
      ((List.replicate 2 ' ' ++ (",\n".toList.intercalate
        ((sections.map ArrangedSection.expression).map String.toList)).flatMap
          (indented (List.replicate 2 ' '))) ++ ['\n']) ++ [')']) := by
    rw [arrangedSequence, ← String.toList_intercalate, ← toList_indent]
    simp
  rw [arrangedProgram_eq, String.toList_append, String.toList_append, htext]
  simpa using hcode.read

end Sections

end PatternLoom
