import Mathlib
import PatternLoom.Proofs.Tempo.Header
import PatternLoom.Proofs.Tempo.Parted

/-! What a text is stripped of. One pass removes the statements of one word from left to right and
never looks at a character twice. So nothing that was a directive before is left, but what stood on
both sides of a statement comes together, and that may be a directive now. -/

namespace PatternLoom
namespace Tempo

section Marks

/-- A text whose characters are marked as kept or removed. -/
def whole (marks : List (Char × Bool)) : List Char := marks.map Prod.fst

/-- The characters that are kept. -/
def kept (marks : List (Char × Bool)) : List Char := whole (marks.filter Prod.snd)

/-- No call of the word is kept with all that stands in it. -/
def Clear (word : List Char) (marks : List (Char × Bool)) : Prop :=
  ∀ before middle after, marks = before ++ (middle ++ after) → (∀ m ∈ middle, m.2 = true) →
    Callless word (whole middle)

/-- A call is put together from both sides of something removed. -/
def Joins (word : List Char) (marks : List (Char × Bool)) : Prop :=
  ∃ before removed after front left right back x, marks = before ++ (removed ++ after) ∧
    removed ≠ [] ∧ (∀ m ∈ removed, m.2 = false) ∧ kept before = front ++ left ∧
    kept after = right ++ back ∧ left ≠ [] ∧ right ≠ [] ∧ Call word (left ++ right) x

variable {word cs : List Char} {marks more : List (Char × Bool)}

theorem whole_append (marks more : List (Char × Bool)) :
    whole (marks ++ more) = whole marks ++ whole more := List.map_append

theorem kept_append (marks more : List (Char × Bool)) :
    kept (marks ++ more) = kept marks ++ kept more := by
  rw [kept, List.filter_append, whole_append]
  rfl

theorem kept_of_kept (h : ∀ m ∈ marks, m.2 = true) : kept marks = whole marks := by
  rw [kept, List.filter_eq_self.mpr h]

theorem kept_of_removed (h : ∀ m ∈ marks, m.2 = false) : kept marks = [] := by
  have hnone : marks.filter Prod.snd = [] := by simpa [List.filter_eq_nil_iff] using h
  rw [kept, hnone]
  rfl

theorem length_kept_le (marks : List (Char × Bool)) :
    (kept marks).length ≤ (whole marks).length := by
  rw [kept, whole, whole, List.length_map, List.length_map]
  exact List.length_filter_le _ _

theorem exists_append_of_kept {front back : List Char} (h : kept marks = front ++ back) :
    ∃ before after, marks = before ++ after ∧ kept before = front ∧ kept after = back := by
  obtain ⟨fs, bs, hfilter, hfront, hback⟩ := List.map_eq_append_iff.mp h
  obtain ⟨before, after, rfl, rfl, rfl⟩ := List.filter_eq_append_iff.mp hfilter
  exact ⟨before, after, rfl, hfront, hback⟩

/-- The run of kept, or of removed, characters that a text begins with. -/
theorem exists_run (b : Bool) (marks : List (Char × Bool)) : ∃ run after, marks = run ++ after ∧
    (∀ m ∈ run, m.2 = b) ∧ ∀ m ∈ after.head?, m.2 ≠ b := by
  refine ⟨marks.takeWhile (·.2 == b), marks.dropWhile (·.2 == b),
    List.takeWhile_append_dropWhile.symm, ?_, ?_⟩
  · intro m hm
    simpa using List.mem_takeWhile_imp hm
  · intro m hm
    have hhead := List.head?_dropWhile_not (fun m : Char × Bool => m.2 == b) marks
    rw [Option.mem_def.mp hm] at hhead
    simpa using hhead

theorem Clear.not_call {before run after : List (Char × Bool)}
    (h : Clear word (before ++ (run ++ after))) (hrun : ∀ m ∈ run, m.2 = true) (x : Binary64) :
    ¬ Call word (whole run) x :=
  h before run after rfl hrun [] (whole run) [] x (by simp)

/-- A call in what is kept is put together, since none is kept in one piece. -/
theorem Clear.joins (hclear : Clear word marks) {front call back : List Char} {x : Binary64}
    (h : kept marks = front ++ (call ++ back)) (hcall : Call word call x) : Joins word marks := by
  obtain ⟨before, rest, rfl, hfront, hrest⟩ := exists_append_of_kept h
  obtain ⟨removed, rest, rfl, hremoved, hkept⟩ := exists_run false rest
  obtain ⟨run, rest, rfl, hrun, hstop⟩ := exists_run true rest
  rw [← List.append_assoc] at hclear
  rw [kept_append, kept_of_removed hremoved, List.nil_append, kept_append,
    kept_of_kept hrun] at hrest
  -- The run is what stands of the call before anything is removed.
  rcases List.append_eq_append_iff.mp hrest with ⟨right, rfl, hright⟩ | ⟨_, hwhole, -⟩
  · have hne : right ≠ [] := by
      rintro rfl
      rw [List.append_nil] at hcall
      exact hclear.not_call hrun x hcall
    obtain ⟨gap, rest, rfl, hgap, hnext⟩ := exists_run false rest
    rw [kept_append, kept_of_removed hgap, List.nil_append] at hright
    obtain ⟨m, hm⟩ : ∃ m, m ∈ (gap ++ rest).head? := by
      cases hlist : gap ++ rest with
      | nil =>
        obtain ⟨_, rfl⟩ := List.append_eq_nil_iff.mp hlist
        exact absurd (List.append_eq_nil_iff.mp hright.symm).1 hne
      | cons m _ => exact ⟨m, rfl⟩
    refine ⟨before ++ (removed ++ run), gap, rest, front, whole run, right, back, x, by simp,
      ?_, hgap, ?_, hright, ?_, hne, hcall⟩
    · rintro rfl
      exact hstop m hm (Bool.eq_true_of_not_eq_false (hnext m hm))
    · rw [kept_append, kept_append, hfront, kept_of_removed hremoved, kept_of_kept hrun,
        List.nil_append]
    · intro hnil
      obtain rfl := List.map_eq_nil_iff.mp hnil
      exact hstop m hm (Bool.eq_true_of_not_eq_false (hkept m hm))
  · obtain ⟨run, more, rfl, rfl, -⟩ := List.map_eq_append_iff.mp hwhole
    have hparts : Clear word ((before ++ removed) ++ (run ++ (more ++ rest))) := by
      simpa using hclear
    exact absurd hcall (hparts.not_call (fun m hm => hrun m (List.mem_append_left _ hm)) x)

theorem Joins.not_callless (h : Joins word marks) : ¬ Callless word (kept marks) := by
  obtain ⟨before, removed, after, front, left, right, back, x, rfl, -, hremoved, hbefore, hafter,
    -, -, hcall⟩ := h
  intro hcallless
  refine hcallless front (left ++ right) back x ?_ hcall
  rw [kept_append, kept_append, kept_of_removed hremoved, hbefore, hafter]
  simp

theorem Clear.contains_iff (hclear : Clear word marks) :
    Contains word (kept marks) ↔ Joins word marks := by
  rw [Tempo.contains_iff]
  constructor
  · intro h
    simp only [Callless, not_forall, not_not] at h
    obtain ⟨before, call, after, x, hkept, hcall⟩ := h
    exact hclear.joins hkept hcall
  · exact Joins.not_callless

end Marks

section Passes

/-- A call with the end of its statement and all blanks around that. -/
inductive Statement (word : List Char) : List Char → Prop where
  | intro {call left stop right : List Char} {x : Binary64} (is_call : Call word call x)
    (blank_left : ∀ c ∈ left, isBlank c = true) (is_stop : stop = [] ∨ stop = [';'])
    (blank_right : ∀ c ∈ right, isBlank c = true) :
    Statement word (call ++ (left ++ (stop ++ right)))

/-- One pass over a text: statements of the word are removed, and in what is kept between them there
is no call. -/
inductive Removes (word : List Char) : List (Char × Bool) → Prop where
  | last {piece : List Char} (callless : Callless word piece) : Removes word (piece.map (·, true))
  | next {piece statement : List Char} {marks : List (Char × Bool)}
    (callless : Callless word piece) (is_statement : Statement word statement)
    (later : Removes word marks) :
    Removes word (piece.map (·, true) ++ (statement.map (·, false) ++ marks))

variable {word cs : List Char} {marks more : List (Char × Bool)}

/-- A stretch without the character between two texts lies in one of them. -/
theorem append_cons_eq_append {α : Type} {front back before middle after : List α} {a : α}
    (h : front ++ a :: back = before ++ (middle ++ after)) (ha : a ∉ middle) :
    (∃ rest, front = before ++ (middle ++ rest)) ∨ ∃ rest, back = rest ++ (middle ++ after) := by
  rcases List.append_eq_append_iff.mp h with ⟨gap, rfl, hgap⟩ | ⟨gap, rfl, hgap⟩
  · cases gap with
    | nil =>
      cases middle with
      | nil => exact .inl ⟨[], by simp⟩
      | cons b middle =>
        obtain ⟨rfl, _⟩ := List.cons.inj hgap
        exact absurd List.mem_cons_self ha
    | cons b gap => exact .inr ⟨gap, (List.cons.inj hgap).2⟩
  · rcases List.append_eq_append_iff.mp hgap with ⟨rest, rfl, _⟩ | ⟨rest, rfl, hrest⟩
    · exact .inl ⟨rest, by simp⟩
    · cases rest with
      | nil => exact .inl ⟨[], by simp⟩
      | cons b rest =>
        obtain ⟨rfl, _⟩ := List.cons.inj hrest
        exact absurd (List.mem_append_right gap List.mem_cons_self) ha

theorem Clear.append_removed (h : Clear word marks) (h' : Clear word more) (c : Char) :
    Clear word (marks ++ (c, false) :: more) := by
  intro before middle after hsplit hmiddle
  have hnot : (c, false) ∉ middle := fun hmem => Bool.false_ne_true (hmiddle _ hmem)
  rcases append_cons_eq_append hsplit hnot with ⟨rest, rfl⟩ | ⟨rest, rfl⟩
  · exact h before middle rest rfl hmiddle
  · exact h' rest middle after rfl hmiddle

theorem clear_of_callless (h : Callless word (whole marks)) : Clear word marks := by
  rintro before middle after rfl -
  rw [whole_append, whole_append] at h
  exact h.of_append_right.of_append

theorem whole_map (piece : List Char) (b : Bool) : whole (piece.map (·, b)) = piece := by
  rw [whole, List.map_map]
  exact List.map_id piece

theorem Removes.clear (h : Removes word marks) : Clear word marks := by
  induction h with
  | last callless => exact clear_of_callless (by rwa [whole_map])
  | @next piece statement marks callless is_statement later ih =>
    have hpiece : Clear word (piece.map (·, true)) := clear_of_callless (by rwa [whole_map])
    have hnothing : Clear word [] := clear_of_callless callless_nil
    have hstatement : ∀ cs : List Char, Clear word (cs.map (·, false) ++ marks) := by
      intro cs
      induction cs with
      | nil => exact ih
      | cons c cs ihcs =>
        exact hnothing.append_removed ihcs c
    obtain ⟨is_call, _, _, _⟩ := is_statement
    obtain ⟨c, cs, hcs⟩ := List.exists_cons_of_ne_nil is_call.ne_nil
    rw [hcs]
    exact hpiece.append_removed (hstatement _) c

theorem exists_dropStatementEnd (cs : List Char) : ∃ left stop right,
    cs = left ++ (stop ++ (right ++ dropStatementEnd cs)) ∧ (∀ c ∈ left, isBlank c = true) ∧
      (stop = [] ∨ stop = [';']) ∧ ∀ c ∈ right, isBlank c = true := by
  obtain ⟨left, hleft, hblank⟩ := exists_trimLeft cs
  obtain ⟨right, hright, hblank'⟩ := exists_trimLeft (dropSemicolon (trimLeft cs))
  have hstop : ∃ stop, trimLeft cs = stop ++ dropSemicolon (trimLeft cs) ∧
      (stop = [] ∨ stop = [';']) := by
    unfold dropSemicolon
    split
    · rename_i rest hrest
      exact ⟨[';'], hrest, .inr rfl⟩
    · exact ⟨[], rfl, .inl rfl⟩
  obtain ⟨stop, hstop, hcases⟩ := hstop
  refine ⟨left, stop, right, ?_, hblank, hcases, hblank'⟩
  rw [dropStatementEnd, ← hright, ← hstop, ← hleft]

theorem Removes.cons {c : Char} (h : Removes word marks)
    (hnone : call? word (c :: whole marks) = none) : Removes word ((c, true) :: marks) := by
  have hcons : ∀ piece rest, Callless word piece → whole marks = piece ++ rest →
      Callless word (c :: piece) := by
    intro piece rest hpiece hparts before call after x hsplit
    cases before with
    | nil =>
      refine call?_eq_none_iff.mp hnone call (after ++ rest) x ?_
      rw [hparts, ← List.cons_append, hsplit]
      simp
    | cons b before => exact hpiece before call after x (List.cons.inj hsplit).2
  cases h with
  | @last piece callless =>
    exact .last (hcons piece [] callless (by rw [whole_map, List.append_nil]))
  | @next piece statement marks callless is_statement later =>
    have hparts := whole_append (piece.map (·, true)) (statement.map (·, false) ++ marks)
    rw [whole_map] at hparts
    have hpiece : Callless word (c :: piece) := hcons piece _ callless hparts
    exact Removes.next hpiece is_statement later

theorem exists_removes (word cs : List Char) : ∃ marks, Removes word marks ∧ whole marks = cs ∧
    kept marks = removeAll word cs := by
  fun_induction removeAll word cs with
  | case1 => exact ⟨[], @Removes.last word [] callless_nil, rfl, rfl⟩
  | case2 c rest x after hcall ih =>
    obtain ⟨marks, hremoves, hwhole, hkept⟩ := ih
    obtain ⟨call, hparts, hcall⟩ := call?_eq_some_iff.mp hcall
    obtain ⟨left, stop, right, hafter, hleft, hstop, hright⟩ := exists_dropStatementEnd after
    refine ⟨(call ++ (left ++ (stop ++ right))).map (·, false) ++ marks, ?_, ?_, ?_⟩
    · exact @Removes.next word [] _ _ callless_nil (.intro hcall hleft hstop hright) hremoves
    · rw [whole_append, whole_map, hwhole, hparts, List.append_assoc, List.append_assoc,
        List.append_assoc, ← hafter]
    · rw [kept_append, kept_of_removed (by simp), hkept, List.nil_append]
  | case3 c rest hnone ih =>
    obtain ⟨marks, hremoves, hwhole, hkept⟩ := ih
    refine ⟨(c, true) :: marks, hremoves.cons (by rwa [hwhole]), ?_, ?_⟩
    · rw [← hwhole]
      rfl
    · rw [← hkept]
      rfl

/-- A pass leaves the text as it is, or it is shorter than before. -/
theorem Removes.callless_or_lt (h : Removes word marks) :
    (Callless word (whole marks) ∧ kept marks = whole marks) ∨
      (kept marks).length < (whole marks).length := by
  cases h with
  | last callless => exact .inl ⟨by rwa [whole_map], kept_of_kept (by simp)⟩
  | @next piece statement marks _ is_statement _ =>
    right
    have hle := length_kept_le marks
    obtain ⟨is_call, _, _, _⟩ := is_statement
    have hpos := List.length_pos_iff.mpr is_call.ne_nil
    rw [kept_append, kept_append, whole_append, whole_append, whole_map, whole_map,
      kept_of_kept (by simp), whole_map, kept_of_removed (by simp)]
    simp only [List.length_append, List.length_nil]
    omega

/-- Marks of two passes over a text, where the second pass sees what the first one keeps. -/
inductive Combines : List (Char × Bool) → List (Char × Bool) → List (Char × Bool) → Prop where
  | nil : Combines [] [] []
  | gone {first second marks : List (Char × Bool)} (c : Char) (rest : Combines first second marks) :
    Combines ((c, false) :: first) second ((c, false) :: marks)
  | seen {first second marks : List (Char × Bool)} (c : Char) (b : Bool)
    (rest : Combines first second marks) :
    Combines ((c, true) :: first) ((c, b) :: second) ((c, b) :: marks)

variable {first second : List (Char × Bool)}

theorem exists_combines (h : whole second = kept first) : ∃ marks, Combines first second marks := by
  induction first generalizing second with
  | nil =>
    obtain rfl := List.map_eq_nil_iff.mp h
    exact ⟨[], .nil⟩
  | cons m first ih =>
    obtain ⟨c, b⟩ := m
    cases b with
    | false =>
      obtain ⟨marks, hmarks⟩ := ih h
      exact ⟨_, .gone c hmarks⟩
    | true =>
      cases second with
      | nil => cases h
      | cons m second =>
        obtain ⟨hc, hrest⟩ := List.cons.inj h
        obtain ⟨marks, hmarks⟩ := ih hrest
        obtain ⟨d, b⟩ := m
        obtain rfl : d = c := hc
        exact ⟨_, .seen d b hmarks⟩

theorem Combines.whole_eq (h : Combines first second marks) : whole marks = whole first := by
  induction h with
  | nil => rfl
  | gone c _ ih => exact congrArg (c :: ·) ih
  | seen c _ _ ih => exact congrArg (c :: ·) ih

theorem Combines.kept_eq (h : Combines first second marks) : kept marks = kept second := by
  induction h with
  | nil => rfl
  | gone c _ ih => exact ih
  | seen c b _ ih =>
    cases b with
    | false => exact ih
    | true => exact congrArg (c :: ·) ih

theorem Combines.exists_append {front back : List (Char × Bool)}
    (h : Combines first second (front ++ back)) : ∃ f f' s s', first = f ++ f' ∧ second = s ++ s' ∧
      Combines f s front ∧ Combines f' s' back := by
  induction front generalizing first second with
  | nil => exact ⟨[], first, [], second, rfl, rfl, .nil, h⟩
  | cons m front ih =>
    cases h with
    | gone c rest =>
      obtain ⟨f, f', s, s', rfl, rfl, hfront, hback⟩ := ih rest
      exact ⟨_ :: f, f', s, s', rfl, rfl, .gone c hfront, hback⟩
    | seen c b rest =>
      obtain ⟨f, f', s, s', rfl, rfl, hfront, hback⟩ := ih rest
      exact ⟨_ :: f, f', _ :: s, s', rfl, rfl, .seen c b hfront, hback⟩

theorem Combines.eq_of_kept (h : Combines first second marks) (hkept : ∀ m ∈ marks, m.2 = true) :
    first = marks ∧ second = marks := by
  induction h with
  | nil => exact ⟨rfl, rfl⟩
  | gone c _ _ => exact absurd (hkept _ List.mem_cons_self) Bool.false_ne_true
  | seen c b _ ih =>
    obtain ⟨hb, hrest⟩ := List.forall_mem_cons.mp hkept
    obtain rfl : b = true := hb
    obtain ⟨rfl, rfl⟩ := ih hrest
    exact ⟨rfl, rfl⟩

/-- What both passes keep in one piece is in one piece for each of them. -/
theorem Combines.clear (h : Combines first second marks) :
    (Clear word first → Clear word marks) ∧ (Clear word second → Clear word marks) := by
  have hpieces : ∀ before middle after, marks = before ++ (middle ++ after) →
      (∀ m ∈ middle, m.2 = true) → (∃ f f', first = f ++ (middle ++ f')) ∧
        ∃ s s', second = s ++ (middle ++ s') := by
    rintro before middle after rfl hmiddle
    obtain ⟨f, _, s, _, rfl, rfl, _, hrest⟩ := h.exists_append
    obtain ⟨g, f', t, s', rfl, rfl, hmid, _⟩ := hrest.exists_append
    obtain ⟨rfl, rfl⟩ := hmid.eq_of_kept hmiddle
    exact ⟨⟨f, f', rfl⟩, s, s', rfl⟩
  constructor
  · intro hclear before middle after hsplit hmiddle
    obtain ⟨⟨f, f', hf⟩, _⟩ := hpieces before middle after hsplit hmiddle
    exact hclear f middle f' hf hmiddle
  · intro hclear before middle after hsplit hmiddle
    obtain ⟨_, s, s', hs⟩ := hpieces before middle after hsplit hmiddle
    exact hclear s middle s' hs hmiddle

end Passes

section Blanks

variable {word cs : List Char}

theorem sameLetter_of_isBlank {c : Char} (h : isBlank c = true) : sameLetter 's' c = false := by
  have hupper : ¬ (65 ≤ c.toNat ∧ c.toNat ≤ 90) := by
    simp only [isBlank, Bool.or_eq_true, Bool.and_eq_true, decide_eq_true_eq, beq_iff_eq] at h
    omega
  have hlower : c.toLower = c := by
    unfold Char.toLower
    split
    · rename_i hc
      simp only [ge_iff_le, UInt32.le_iff_toNat_le] at hc
      exact absurd hc hupper
    · rfl
  have hne : ∀ d, isBlank d = false → c ≠ d := by
    rintro d hd rfl
    rw [h] at hd
    cases hd
  simp only [sameLetter, hlower, hne 's' (by decide), hne 'ſ' (by decide), decide_false,
    Bool.or_false, Bool.and_false]

theorem exists_trimRight (cs : List Char) :
    ∃ right, cs = trimRight cs ++ right ∧ ∀ c ∈ right, isBlank c = true := by
  obtain ⟨left, hleft, hblank⟩ := exists_trimLeft cs.reverse
  refine ⟨left.reverse, ?_, fun c hc => hblank c (List.mem_reverse.mp hc)⟩
  rw [trimRight, ← List.reverse_append]
  change cs = (left ++ trimLeft cs.reverse).reverse
  rw [← hleft, List.reverse_reverse]

theorem head_trimLeft (cs : List Char) : ∀ c ∈ (trimLeft cs).head?, isBlank c = false := by
  intro c hc
  have hhead := List.head?_dropWhile_not isBlank cs
  rw [trimLeft] at hc
  rw [Option.mem_def.mp hc] at hhead
  simpa using hhead

theorem trim_trim (cs : List Char) : trim (trim cs) = trim cs := by
  refine trim_eq_self ?_ ?_
  · intro c hc
    obtain ⟨right, hright, _⟩ := exists_trimRight (trimLeft cs)
    refine head_trimLeft cs c ?_
    rw [hright, List.head?_append]
    rw [trim] at hc
    rw [Option.mem_def.mp hc]
    rfl
  · intro c hc
    rw [trim, trimRight, List.getLast?_reverse] at hc
    exact head_trimLeft _ c hc

theorem length_trim_le (cs : List Char) : (trim cs).length ≤ cs.length := by
  have hright : (trimRight (trimLeft cs)).length ≤ (trimLeft cs).length := by
    rw [trimRight, List.length_reverse]
    exact (length_dropWhile_le _ _).trans_eq List.length_reverse
  exact hright.trans (length_dropWhile_le _ _)

/-- Blanks around a text do not matter to the calls in it. -/
theorem callless_trim (hword : word.head? = some 's') :
    Callless word (trim cs) ↔ Callless word cs := by
  have hconcat : ∀ {xs right : List Char}, (∀ c ∈ right, isBlank c = true) →
      (Callless word (xs ++ right) ↔ Callless word xs) := by
    intro xs right hright
    induction right using List.reverseRecOn with
    | nil => rw [List.append_nil]
    | append_singleton right c ih =>
      have hc : c ≠ ')' := by
        rintro rfl
        exact absurd (hright ')' (by simp)) (by decide)
      rw [← List.append_assoc, callless_concat hc,
        ih fun d hd => hright d (List.mem_append_left _ hd)]
  obtain ⟨left, hleft, hblank⟩ := exists_trimLeft cs
  obtain ⟨right, hright, hblank'⟩ := exists_trimRight (trimLeft cs)
  have hcs : Callless word cs ↔ Callless word (trimLeft cs) := by
    conv_lhs => rw [hleft]
    exact callless_append_of_not_initial hword fun c hc => sameLetter_of_isBlank (hblank c hc)
  rw [hcs, trim]
  conv_rhs => rw [hright]
  exact (hconcat hblank').symm

end Blanks

section Stripping

variable {word cs : List Char} {code : String}

/-- A text without tempo directives. -/
def Timeless (cs : List Char) : Prop := ∀ word ∈ [cpsWord, bpmWord], ¬ Contains word cs

theorem timeless_iff : Timeless cs ↔ Callless cpsWord cs ∧ Callless bpmWord cs := by
  simp only [Timeless, List.forall_mem_cons, List.not_mem_nil, false_implies, implies_true, and_true,
    contains_iff, not_not]

theorem removeAll_of_callless (h : Callless word cs) : removeAll word cs = cs := by
  fun_induction removeAll word cs with
  | case1 => rfl
  | case2 c rest x after hcall =>
    obtain ⟨call, hparts, hcall⟩ := call?_eq_some_iff.mp hcall
    exact absurd hcall (h [] call after x hparts)
  | case3 c rest _ ih =>
    have hparts : Callless word ([c] ++ rest) := h
    rw [ih hparts.of_append_right]

theorem length_removeAll_le (word cs : List Char) : (removeAll word cs).length ≤ cs.length := by
  obtain ⟨marks, -, rfl, hkept⟩ := exists_removes word cs
  rw [← hkept]
  exact length_kept_le marks

theorem length_removeAll_lt (h : ¬ Callless word cs) : (removeAll word cs).length < cs.length := by
  obtain ⟨marks, hremoves, rfl, hkept⟩ := exists_removes word cs
  rw [← hkept]
  exact hremoves.callless_or_lt.resolve_left fun hcallless => h hcallless.1

theorem toList_strip (code : String) :
    (strip code).toList = trim (removeAll bpmWord (removeAll cpsWord code.toList)) :=
  String.toList_ofList

/-- A text that has a directive is shorter when it is stripped. -/
theorem length_strip_lt (h : ¬ Timeless code.toList) : (strip code).length < code.length := by
  rw [← String.length_toList, ← String.length_toList, toList_strip]
  refine (length_trim_le _).trans_lt ?_
  rw [timeless_iff] at h
  by_cases hcps : Callless cpsWord code.toList
  · rw [removeAll_of_callless hcps]
    exact length_removeAll_lt fun hbpm => h ⟨hcps, hbpm⟩
  · exact (length_removeAll_le _ _).trans_lt (length_removeAll_lt hcps)

/-- Stripping does nothing more just if there are no directives left. -/
theorem strip_strip_iff (code : String) :
    strip (strip code) = strip code ↔ Timeless (strip code).toList := by
  constructor
  · intro hsame
    by_contra h
    have hlt := length_strip_lt h
    rw [hsame] at hlt
    exact lt_irrefl _ hlt
  · intro h
    obtain ⟨hcps, hbpm⟩ := timeless_iff.mp h
    rw [← String.toList_inj, toList_strip (strip code), removeAll_of_callless hcps,
      removeAll_of_callless hbpm, toList_strip, trim_trim]

theorem exists_timeless_iterate (code : String) :
    ∃ n ≤ code.length, Timeless (Nat.iterate strip n code).toList := by
  induction hlength : code.length using Nat.strong_induction_on generalizing code with
  | _ length ih =>
    by_cases h : Timeless code.toList
    · exact ⟨0, Nat.zero_le _, h⟩
    · have hlt := length_strip_lt h
      rw [hlength] at hlt
      obtain ⟨n, hn, htimeless⟩ := ih _ hlt (strip code) rfl
      exact ⟨n + 1, hn.trans_lt hlt, htimeless⟩

/-- What two passes leave of a text: a directive is in it just if one is put together from both
sides of something removed. -/
structure Leaves (code : String) (marks : List (Char × Bool)) : Prop where
  passes : ∃ first second, Removes cpsWord first ∧ Removes bpmWord second ∧
    Combines first second marks
  text : whole marks = code.toList
  stripped : (strip code).toList = trim (kept marks)
  contains : ∀ word ∈ [cpsWord, bpmWord], Contains word (strip code).toList ↔ Joins word marks

/-- Stripping leaves the directives that the removal of others puts together, and no more. It is
complete just if doing it again does nothing, and is so after as many times as there are characters
at most. -/
theorem strip_leaves (code : String) : (∃ marks, Leaves code marks) ∧
    (strip (strip code) = strip code ↔ Timeless (strip code).toList) ∧
    ∃ n ≤ code.length, Timeless (Nat.iterate strip n code).toList := by
  refine ⟨?_, strip_strip_iff code, exists_timeless_iterate code⟩
  obtain ⟨first, hfirst, hcode, hkept⟩ := exists_removes cpsWord code.toList
  obtain ⟨second, hsecond, hwhole, hkept'⟩ := exists_removes bpmWord (kept first)
  obtain ⟨marks, hmarks⟩ := exists_combines hwhole
  have hstripped : (strip code).toList = trim (kept marks) := by
    rw [toList_strip, hmarks.kept_eq, hkept', hkept]
  refine ⟨marks, ⟨first, second, hfirst, hsecond, hmarks⟩, hmarks.whole_eq.trans hcode,
    hstripped, ?_⟩
  intro word hword
  have hclear : Clear word marks ∧ word.head? = some 's' := by
    simp only [List.mem_cons, List.not_mem_nil, or_false] at hword
    rcases hword with rfl | rfl
    · exact ⟨hmarks.clear.1 hfirst.clear, rfl⟩
    · exact ⟨hmarks.clear.2 hsecond.clear, rfl⟩
  rw [hstripped, Tempo.contains_iff, callless_trim hclear.2, ← Tempo.contains_iff]
  exact hclear.1.contains_iff

/-- A statement within the word of another one. -/
theorem nested_not_timeless : strip "setcsetcps(1)ps(2)" = "setcps(2)" ∧
    ¬ Timeless (strip "setcsetcps(1)ps(2)").toList ∧
    strip (strip "setcsetcps(1)ps(2)") ≠ strip "setcsetcps(1)ps(2)" := by
  have hstrip : strip "setcsetcps(1)ps(2)" = "setcps(2)" := by decide +kernel
  have hleft : ¬ Timeless (strip "setcsetcps(1)ps(2)").toList := by
    rw [hstrip, timeless_iff, ← findCall_eq_none_iff]
    have hcall : findCall cpsWord "setcps(2)".toList ≠ none := by decide +kernel
    exact fun h => hcall h.1
  exact ⟨hstrip, hleft, (strip_strip_iff _).not.mpr hleft⟩

end Stripping

end Tempo
end PatternLoom
