import Mathlib
import PatternLoom.Midi.Steps
import PatternLoom.Proofs.Text.Lines
import PatternLoom.Text.Parts

/-! Reading step patterns. A pattern is parted into words at the spaces outside of brackets,
counted words stand for as many cells, and a cell holds the members of its group. What is
written for a list of cells reads as these cells. -/

namespace PatternLoom
namespace Midi

/-- The first word of a pattern and the words after it. Spaces inside of brackets part no
words. -/
def wordsFrom (inside : Bool) : List Char → List Char × List (List Char)
  | [] => ([], [])
  | c :: cs =>
    if c = ' ' && !inside then
      let (word, words) := wordsFrom false cs
      ([], word :: words)
    else
      let (word, words) := wordsFrom (if c = '[' then true else if c = ']' then false else inside) cs
      (c :: word, words)

def patternWords (cs : List Char) : List (List Char) :=
  let (word, words) := wordsFrom false cs
  word :: words

/-- A word without its count, and how often it stands; once if it has none. -/
def readRun (word : List Char) : Nat × List Char :=
  match word.dropWhile (· ≠ '!') with
  | '!' :: count => (Decimal.digitsValue count, word.takeWhile (· ≠ '!'))
  | _ => (1, word)

/-- The members of a cell: none of a rest, and those of a group between its brackets. -/
def readCell (cell : List Char) : List String :=
  if String.ofList cell = rest then []
  else (parts ' ' (cell.filter fun c => c ≠ '[' && c ≠ ']')).map String.ofList

def expandRun (run : Nat × List Char) : List (List String) :=
  List.replicate run.1 (readCell run.2)

def readPattern (pattern : String) : List (List String) :=
  (patternWords pattern.toList).flatMap fun word => expandRun (readRun word)

section Words

/-- A text that is never parted, whatever comes after it. -/
def Unbroken (cs : List Char) : Prop :=
  ∀ more, wordsFrom false (cs ++ more) =
    (cs ++ (wordsFrom false more).1, (wordsFrom false more).2)

/-- A character that means nothing to the grammar of patterns. -/
def IsPlain (c : Char) : Prop := c ≠ ' ' ∧ c ≠ '[' ∧ c ≠ ']' ∧ c ≠ '!'

instance : DecidablePred IsPlain := fun c =>
  inferInstanceAs (Decidable (c ≠ ' ' ∧ c ≠ '[' ∧ c ≠ ']' ∧ c ≠ '!'))

theorem wordsFrom_cons {inside : Bool} {c : Char} (h : IsPlain c) (cs : List Char) :
    wordsFrom inside (c :: cs) = (c :: (wordsFrom inside cs).1, (wordsFrom inside cs).2) := by
  obtain ⟨hspace, hopen, hclose, _⟩ := h
  simp [wordsFrom, hspace, hopen, hclose]

theorem Unbroken.append {cs ds : List Char} (hc : Unbroken cs) (hd : Unbroken ds) :
    Unbroken (cs ++ ds) := by
  intro more
  rw [List.append_assoc, hc, hd, List.append_assoc]

theorem unbroken_of_plain {cs : List Char} (h : ∀ c ∈ cs, IsPlain c) : Unbroken cs := by
  intro more
  induction cs with
  | nil => rfl
  | cons c cs ih =>
    obtain ⟨hc, hcs⟩ := List.forall_mem_cons.mp h
    rw [List.cons_append, wordsFrom_cons hc, ih hcs, List.cons_append]

/-- Up to the closing bracket a group is read as one. -/
theorem wordsFrom_inside {cs : List Char} (h : ∀ c ∈ cs, IsPlain c ∨ c = ' ') (more : List Char) :
    wordsFrom true (cs ++ ']' :: more) =
      (cs ++ ']' :: (wordsFrom false more).1, (wordsFrom false more).2) := by
  induction cs with
  | nil => simp [wordsFrom]
  | cons c cs ih =>
    obtain ⟨hc, hcs⟩ := List.forall_mem_cons.mp h
    rcases hc with hc | rfl
    · rw [List.cons_append, wordsFrom_cons hc, ih hcs, List.cons_append]
    · simp [wordsFrom, ih hcs]

theorem unbroken_group {cs : List Char} (h : ∀ c ∈ cs, IsPlain c ∨ c = ' ') :
    Unbroken ('[' :: (cs ++ [']'])) := by
  intro more
  have hinside := wordsFrom_inside h more
  simp only [List.cons_append, List.append_assoc, List.nil_append]
  simp [wordsFrom, hinside]

theorem unbroken_bang : Unbroken ['!'] := fun more => by simp [wordsFrom]

theorem Unbroken.words {cs : List Char} (h : Unbroken cs) : patternWords cs = [cs] := by
  have hend := h []
  rw [List.append_nil] at hend
  simp [patternWords, hend, wordsFrom]

theorem Unbroken.words_space {cs : List Char} (h : Unbroken cs) (more : List Char) :
    patternWords (cs ++ ' ' :: more) = cs :: patternWords more := by
  have hspace := h (' ' :: more)
  simp [patternWords, hspace, wordsFrom]

theorem patternWords_intercalate {words : List (List Char)} (hne : words ≠ [])
    (h : ∀ word ∈ words, Unbroken word) : patternWords ([' '].intercalate words) = words := by
  induction words with
  | nil => exact absurd rfl hne
  | cons word words ih =>
    obtain ⟨hword, hwords⟩ := List.forall_mem_cons.mp h
    cases words with
    | nil => rw [List.intercalate_singleton, hword.words]
    | cons next words =>
      rw [List.intercalate_cons_cons, List.append_assoc, List.singleton_append,
        hword.words_space, ih (List.cons_ne_nil _ _) hwords]

theorem parts_of_not_mem {mark : Char} {cs : List Char} (h : mark ∉ cs) : parts mark cs = [cs] := by
  induction cs with
  | nil => rfl
  | cons c cs ih =>
    obtain ⟨hc, hcs⟩ := not_or.mp (List.mem_cons.not.mp h)
    rw [parts, if_neg (Ne.symm hc), ih hcs]

theorem parts_append {mark : Char} {cs : List Char} (h : mark ∉ cs) (more : List Char) :
    parts mark (cs ++ mark :: more) = cs :: parts mark more := by
  induction cs with
  | nil => simp [parts]
  | cons c cs ih =>
    obtain ⟨hc, hcs⟩ := not_or.mp (List.mem_cons.not.mp h)
    rw [List.cons_append, parts, if_neg (Ne.symm hc), ih hcs]

theorem parts_intercalate {mark : Char} {texts : List (List Char)} (hne : texts ≠ [])
    (h : ∀ text ∈ texts, mark ∉ text) : parts mark ([mark].intercalate texts) = texts := by
  induction texts with
  | nil => exact absurd rfl hne
  | cons text texts ih =>
    obtain ⟨htext, htexts⟩ := List.forall_mem_cons.mp h
    cases texts with
    | nil => rw [List.intercalate_singleton, parts_of_not_mem htext]
    | cons next texts =>
      rw [List.intercalate_cons_cons, List.append_assoc, List.singleton_append,
        parts_append htext, ih (List.cons_ne_nil _ _) htexts]

end Words

section Cells

/-- A name that can be a member of a cell. -/
def IsName (name : String) : Prop := (∀ c ∈ name.toList, IsPlain c) ∧ name ≠ rest

theorem toList_rest : rest.toList = ['~'] := rfl

/-- The characters of a cell: those of its members, and spaces between two brackets. -/
theorem toList_cellText_group (first second : String) (more : List String) :
    (cellText (first :: second :: more)).toList =
      '[' :: ([' '].intercalate ((first :: second :: more).map String.toList) ++ [']']) := by
  change ("[" ++ " ".intercalate (first :: second :: more) ++ "]").toList = _
  rw [String.toList_append, String.toList_append, String.toList_intercalate, List.append_assoc]
  rfl

theorem group_chars {members : List String} (h : ∀ name ∈ members, IsName name) :
    ∀ c ∈ [' '].intercalate (members.map String.toList), IsPlain c ∨ c = ' ' := by
  intro c hc
  rcases mem_intercalate hc with hspace | ⟨text, htext, hc⟩
  · exact .inr (List.mem_singleton.mp hspace)
  · obtain ⟨name, hname, rfl⟩ := List.mem_map.mp htext
    exact .inl ((h name hname).1 c hc)

theorem not_mem_cellText {members : List String} (h : ∀ name ∈ members, IsName name) :
    '!' ∉ (cellText members).toList := by
  cases members with
  | nil => decide
  | cons first members =>
    cases members with
    | nil => exact fun hc => ((h first (by simp)).1 _ hc).2.2.2 rfl
    | cons second members =>
      rw [toList_cellText_group]
      intro hc
      rcases List.mem_cons.mp hc with hc | hc
      · cases hc
      · rcases List.mem_append.mp hc with hc | hc
        · rcases group_chars h _ hc with hplain | hspace
          · exact hplain.2.2.2 rfl
          · cases hspace
        · simp at hc

theorem unbroken_cellText {members : List String} (h : ∀ name ∈ members, IsName name) :
    Unbroken (cellText members).toList := by
  cases members with
  | nil =>
    refine unbroken_of_plain ?_
    intro c hc
    rw [cellText, toList_rest, List.mem_singleton] at hc
    subst hc
    decide
  | cons first members =>
    cases members with
    | nil => exact unbroken_of_plain (h first (by simp)).1
    | cons second members =>
      rw [toList_cellText_group]
      exact unbroken_group (group_chars h)

theorem filter_brackets {cs : List Char} (h : ∀ c ∈ cs, IsPlain c ∨ c = ' ') :
    cs.filter (fun c => c ≠ '[' && c ≠ ']') = cs := by
  refine List.filter_eq_self.mpr fun c hc => ?_
  rcases h c hc with hplain | rfl
  · simp [hplain.2.1, hplain.2.2.1]
  · decide

/-- The members of a cell are read as they were written. -/
theorem readCell_cellText {members : List String} (h : ∀ name ∈ members, IsName name) :
    readCell (cellText members).toList = members := by
  unfold readCell
  rw [String.ofList_toList]
  cases members with
  | nil => rw [cellText, if_pos rfl]
  | cons first members =>
    have hmembers : ((first :: members).map String.toList).map String.ofList = first :: members := by
      simp
    have hparts : parts ' ' ([' '].intercalate ((first :: members).map String.toList)) =
        (first :: members).map String.toList := by
      refine parts_intercalate (by simp) fun text htext hmem => ?_
      obtain ⟨name, hname, rfl⟩ := List.mem_map.mp htext
      exact ((h name hname).1 _ hmem).1 rfl
    have hchars := filter_brackets (group_chars h)
    cases members with
    | nil =>
      have hname := h first (by simp)
      rw [List.map_cons, List.map_nil, List.intercalate_singleton] at hparts hchars
      rw [cellText, if_neg hname.2, hchars, hparts]
      simp
    | cons second members =>
      have hrest : cellText (first :: second :: members) ≠ rest := by
        intro he
        have hlist := congrArg String.toList he
        rw [toList_cellText_group, toList_rest] at hlist
        cases (List.cons.inj hlist).1
      rw [if_neg hrest, toList_cellText_group, List.filter_cons_of_neg (by decide),
        List.filter_append, hchars, List.filter_cons_of_neg (by decide), List.filter_nil,
        List.append_nil, hparts, hmembers]

end Cells

section Runs

theorem isPlain_of_isAsciiDigit {c : Char} (h : isAsciiDigit c = true) : IsPlain c := by
  refine ⟨?_, ?_, ?_, ?_⟩
  all_goals
    rintro rfl
    exact absurd h (by decide)

theorem toList_runText {token : String} {length : Nat} (h : 1 < length) :
    (runText token length).toList = token.toList ++ '!' :: Decimal.digits length := by
  rw [runText, if_pos h, String.toList_append, String.toList_append, toList_toString,
    List.append_assoc]
  rfl

theorem runText_one (token : String) : runText token 1 = token := rfl

theorem readRun_runText {token : String} {length : Nat} (hpos : 0 < length)
    (h : '!' ∉ token.toList) : readRun (runText token length).toList = (length, token.toList) := by
  have hall : ∀ c ∈ token.toList, decide (c ≠ '!') = true := by
    intro c hc
    rw [decide_eq_true_eq]
    rintro rfl
    exact h hc
  unfold readRun
  rcases Nat.lt_or_ge 1 length with hlt | hle
  swap
  · obtain rfl : length = 1 := by omega
    rw [runText_one, List.dropWhile_eq_nil_iff.mpr hall]
  · rw [toList_runText hlt, List.dropWhile_append_of_pos hall, List.takeWhile_append_of_pos hall]
    simp [Decimal.digitsValue_digits]

theorem unbroken_runText {token : String} {length : Nat} (h : Unbroken token.toList) :
    Unbroken (runText token length).toList := by
  by_cases hlt : 1 < length
  · rw [toList_runText hlt, ← List.singleton_append]
    refine h.append (unbroken_bang.append (unbroken_of_plain fun c hc => ?_))
    exact isPlain_of_isAsciiDigit (Decimal.isAsciiDigit_of_mem_digits hc)
  · rwa [runText, if_neg hlt]

theorem expandRun_readRun {token : String} {length : Nat} (hpos : 0 < length)
    (h : '!' ∉ token.toList) : expandRun (readRun (runText token length).toList) =
      List.replicate length (readCell token.toList) := by
  rw [readRun_runText hpos h, expandRun]

/-- Runs from a current token stand for it and for what follows it. -/
theorem expand_compressFrom {token : String} {length : Nat} {tokens : List String}
    (hpos : 0 < length) (h : ∀ t ∈ token :: tokens, '!' ∉ t.toList) :
    ((compressFrom token length tokens).flatMap fun t => expandRun (readRun t.toList)) =
      List.replicate length (readCell token.toList) ++ tokens.map fun t => readCell t.toList := by
  -- The run in hand grows or is closed, so its token and its length vary with the tokens left.
  induction tokens generalizing token length with
  | nil =>
    have hrun := expandRun_readRun hpos (h token (List.mem_singleton_self _))
    simp [compressFrom, hrun]
  | cons next tokens ih =>
    obtain ⟨htoken, htokens⟩ := List.forall_mem_cons.mp h
    rw [compressFrom]
    split
    · rename_i he
      subst he
      rw [ih (Nat.succ_pos _) htokens]
      simp [List.replicate_succ']
    · rw [List.flatMap_cons, expandRun_readRun hpos htoken, ih Nat.one_pos htokens]
      rfl

theorem mem_compressFrom {token : String} {length : Nat} {tokens : List String} {t : String}
    (h : t ∈ compressFrom token length tokens) :
    ∃ t' ∈ token :: tokens, ∃ n, t = runText t' n := by
  induction tokens generalizing token length with
  | nil => exact ⟨token, by simp, length, by simpa [compressFrom] using h⟩
  | cons next tokens ih =>
    rw [compressFrom] at h
    split at h
    · rename_i he
      subst he
      obtain ⟨t', ht', hn⟩ := ih h
      exact ⟨t', List.mem_cons_of_mem _ ht', hn⟩
    · rcases List.mem_cons.mp h with rfl | h
      · exact ⟨token, by simp, length, rfl⟩
      · obtain ⟨t', ht', hn⟩ := ih h
        exact ⟨t', List.mem_cons_of_mem _ ht', hn⟩

theorem compressFrom_ne_nil (token : String) (length : Nat) (tokens : List String) :
    compressFrom token length tokens ≠ [] := by
  induction tokens generalizing token length with
  | nil => simp [compressFrom]
  | cons next tokens ih =>
    rw [compressFrom]
    split
    · exact ih _ _
    · exact List.cons_ne_nil _ _

/-- The pattern written for some cells reads as these cells. -/
theorem readPattern_compress {cells : List (List String)} (hne : cells ≠ [])
    (h : ∀ members ∈ cells, ∀ name ∈ members, IsName name) :
    readPattern (" ".intercalate (compress (cells.map cellText))) = cells := by
  obtain ⟨first, more, rfl⟩ := List.exists_cons_of_ne_nil hne
  have hmark : ∀ t ∈ cellText first :: more.map cellText, '!' ∉ t.toList := by
    intro t ht
    obtain ⟨members, hmembers, rfl⟩ := List.mem_map.mp (List.map_cons ▸ ht)
    exact not_mem_cellText (h members hmembers)
  have hwords : patternWords (" ".intercalate (compress ((first :: more).map cellText))).toList =
      (compress ((first :: more).map cellText)).map String.toList := by
    rw [String.toList_intercalate]
    refine patternWords_intercalate ?_ fun word hword => ?_
    · exact List.map_eq_nil_iff.not.mpr (compressFrom_ne_nil _ _ _)
    · obtain ⟨t, ht, rfl⟩ := List.mem_map.mp hword
      obtain ⟨t', ht', n, rfl⟩ := mem_compressFrom ht
      obtain ⟨members, hmembers, rfl⟩ := List.mem_map.mp (List.map_cons ▸ ht')
      exact unbroken_runText (unbroken_cellText (h members hmembers))
  have hcells : ((first :: more).map cellText).map (fun t => readCell t.toList) = first :: more := by
    rw [List.map_map]
    conv_rhs => rw [← List.map_id (first :: more)]
    exact List.map_congr_left fun members hmembers => readCell_cellText (h members hmembers)
  rw [readPattern, hwords, List.flatMap_map]
  exact (expand_compressFrom Nat.one_pos hmark).trans hcells

end Runs

end Midi
end PatternLoom
