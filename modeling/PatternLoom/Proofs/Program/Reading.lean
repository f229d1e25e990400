import Mathlib
import PatternLoom.Proofs.Program.Shape
import PatternLoom.Proofs.Tempo.Header
import PatternLoom.Proofs.Text.Call

/-! Reading programs. The outer sequence of a program has one argument for each segment, and a
stack one member for each layer, whatever stands in the patterns: a quoted text is one lexeme,
so nothing in it can end it or be taken for a bracket or a comma. -/

namespace PatternLoom

/-- The quoted texts of a list of lexemes. -/
def quotations (ls : List Lexeme) : List (List Char) := ls.filterMap Lexeme.quoted?

/-- A text that reads as lexemes which stand together and hold the quoted texts given. -/
structure IsPart (cs : List Char) (ls : List Lexeme) (texts : List (List Char)) : Prop where
  lexes : Lexes cs ls
  whole : Whole ls
  quotes : quotations ls = texts

section Parts

theorem quotations_append (ls ms : List Lexeme) :
    quotations (ls ++ ms) = quotations ls ++ quotations ms := List.filterMap_append

theorem quotations_written (cs : List Char) : quotations (written cs) = [] := by
  induction cs with
  | nil => rfl
  | cons c cs ih => exact ih

theorem quotations_called (name : String) (inside : List Lexeme) :
    quotations (called name inside) = quotations inside := by
  have hclose : quotations (.opening :: (inside ++ [.closing])) = quotations inside := by
    change quotations (inside ++ [.closing]) = _
    rw [quotations_append]
    exact List.append_nil _
  rw [called, quotations_append, quotations_written, hclose, List.nil_append]

theorem IsPart.append {cs ds : List Char} {ls ms : List Lexeme} {texts more : List (List Char)}
    (hc : IsPart cs ls texts) (hd : IsPart ds ms more) :
    IsPart (cs ++ ds) (ls ++ ms) (texts ++ more) where
  lexes := hc.lexes.append hd.lexes
  whole := hc.whole.append hd.whole
  quotes := by rw [quotations_append, hc.quotes, hd.quotes]

theorem isPart_called (name : String) {cs : List Char} {ls : List Lexeme}
    (hname : ∀ c ∈ name.toList, IsSign c) (hlexes : Lexes cs ls) (hbalanced : Balanced ls) :
    IsPart (name.toList ++ '(' :: (cs ++ [')'])) (called name ls) (quotations ls) :=
  ⟨lexes_called hname hlexes, whole_called hbalanced, quotations_called name ls⟩

theorem quotations_intercalate (lss : List (List Lexeme)) :
    quotations ([.comma].intercalate lss) = lss.flatMap quotations := by
  induction lss with
  | nil => rfl
  | cons ls lss ih =>
    cases lss with
    | nil => simp
    | cons ms lss =>
      rw [List.intercalate_cons_cons, quotations_append, quotations_append, ih,
        List.flatMap_cons]
      exact congrArg (· ++ _) (List.append_nil _)

theorem called_ne_nil (name : String) (inside : List Lexeme) : called name inside ≠ [] :=
  List.append_ne_nil_of_right_ne_nil _ (List.cons_ne_nil _ _)

theorem isSign_of_all {cs : List Char} (h : cs.all (fun c => decide (IsSign c)) = true) :
    ∀ c ∈ cs, IsSign c := fun c hc => of_decide_eq_true (List.all_eq_true.mp h c hc)

theorem isSign_of_isAsciiDigit {c : Char} (h : isAsciiDigit c = true) : IsSign c := by
  refine ⟨Tempo.isBlank_eq_false_of_isAsciiDigit h, ?_, ?_, ?_, ?_, ?_⟩
  all_goals
    rintro rfl
    exact absurd h (by decide)

theorem IsNumeric.lexes {cs : List Char} (h : IsNumeric cs) : Lexes cs (written cs) := by
  refine lexes_signs fun c hc => ?_
  rcases h.chars c hc with hdigit | rfl | rfl
  · exact isSign_of_isAsciiDigit hdigit
  · decide
  · decide

end Parts

section Members

theorem LevelCall.isPart {cs : List Char} (h : LevelCall cs) : ∃ ls, IsPart cs ls [] := by
  obtain @⟨name, numbers, known, _, hnumbers⟩ := h
  have hname : ∀ c ∈ name.toList, IsSign c := by
    simp only [List.mem_cons, List.not_mem_nil, or_false] at known
    rcases known with rfl | rfl | rfl | rfl <;> exact isSign_of_all (by decide)
  have hcomma : Lexes [',', ' '] [.comma] :=
    (lexes_char (by decide) (by decide)).append (lexes_blanks (by simp; decide))
  have hlexes : List.Forall₂ Lexes numbers (numbers.map written) := by
    rw [List.forall₂_map_right_iff, List.forall₂_same]
    exact fun n hn => (hnumbers n hn).lexes
  have hbalanced : Balanced ([.comma].intercalate (numbers.map written)) := by
    refine Balanced.intercalate fun ls hls => ?_
    obtain ⟨n, _, rfl⟩ := List.mem_map.mp hls
    exact (whole_written n).balanced
  have hquotes : quotations ([.comma].intercalate (numbers.map written)) = [] := by
    rw [quotations_intercalate, List.flatMap_map, List.flatMap_eq_nil_iff]
    exact fun n _ => quotations_written n
  have hcall := isPart_called _ hname (lexes_intercalate hcomma hlexes) hbalanced
  rw [hquotes] at hcall
  exact ⟨_, hcall⟩

theorem LevelCalls.isPart {cs : List Char} (h : LevelCalls cs) : ∃ ls, IsPart cs ls [] := by
  obtain ⟨calls, rfl, hcalls⟩ := h
  induction calls with
  | nil => exact ⟨[], lexes_nil, whole_nil, rfl⟩
  | cons call calls ih =>
    obtain ⟨hcall, hcalls⟩ := List.forall_mem_cons.mp hcalls
    obtain ⟨ls, hls⟩ := hcall.isPart
    obtain ⟨ms, hms⟩ := ih hcalls
    exact ⟨ls ++ ms, hls.append hms⟩

/-- What is quoted where a layer plays a pattern. -/
def Layer.texts (layer : Layer) (pattern : String) : List (List Char) :=
  pattern.toList :: (layer.instrument.map String.toList).toList

theorem isPart_literal_call (name : String) (hname : ∀ c ∈ name.toList, IsSign c) (s : String) :
    IsPart (name.toList ++ '(' :: ((literal s).toList ++ [')'])) (called name [.quoted s.toList])
      [s.toList] :=
  isPart_called name hname (lexes_literal s) (balanced_of_marks (by simp [Lexeme.isBracket]))

theorem Layer.source_isPart (layer : Layer) (pattern : String) :
    ∃ ls, IsPart (layer.source pattern).toList ls (layer.texts pattern) ∧ ls ≠ [] := by
  unfold Layer.source Layer.texts
  cases layer.instrument with
  | none =>
    have hcall := isPart_literal_call "s" (isSign_of_all (by decide)) pattern
    exact ⟨_, by simpa using hcall, called_ne_nil _ _⟩
  | some instrument =>
    have hnote := isPart_literal_call "note" (isSign_of_all (by decide)) pattern
    have hsound := isPart_literal_call ".s" (isSign_of_all (by decide)) instrument
    exact ⟨_, by simpa using hnote.append hsound,
      List.append_ne_nil_of_left_ne_nil (called_ne_nil _ _) _⟩

theorem Layer.expression_isPart {layer : Layer} {pattern text : String} {levels : Levels}
    {adjustments : Adjustments} (h : layer.expression pattern levels adjustments = .ok text) :
    ∃ ls, IsPart text.toList ls (layer.texts pattern) ∧ ls ≠ [] := by
  obtain ⟨calls, htext, hcalls⟩ := Layer.expression_parts h
  obtain ⟨ls, hls, hne⟩ := layer.source_isPart pattern
  obtain ⟨ms, hms⟩ := hcalls.isPart
  have hboth := hls.append hms
  rw [List.append_nil] at hboth
  exact ⟨ls ++ ms, by rwa [htext], List.append_ne_nil_of_left_ne_nil hne ms⟩

end Members

section Blocks

/-- The comment in front of a block: its number, what plays there, and the range of its bars. -/
def blockComment (number : Nat) (segment : Segment) : String :=
  " " ++ toString number ++ ". " ++ (if segment.isGap then "GAP" else "PHASE " ++ segment.id) ++
    " " ++ toString segment.first ++ "-" ++ toString segment.last

/-- Lexemes that play a segment: silence over its bars if no layer of the rules plays in it, and
otherwise a stack over its bars with one member for each layer. -/
def PlaysSegment (rules : RuleSet) (pattern : Layer → String) (segment : Segment)
    (ls : List Lexeme) : Prop :=
  if segment.isGap || (rules.members segment).isEmpty then
    readCall "silence.slow" ls = some ([written (toString segment.span).toList], [])
  else ∃ members after, readCall "stack" ls = some (members, after) ∧
    readCall ".slow" after = some ([written (toString segment.span).toList], []) ∧
    List.Forall₂ (fun layer member => quotations member = layer.texts (pattern layer))
      (rules.members segment) members

theorem members_of_isGap {segment : Segment} (h : segment.isGap) (rules : RuleSet) :
    rules.members segment = [] := by
  have hphase : segment.phase = none := Option.isNone_iff_eq_none.mp h
  rw [RuleSet.members, Segment.layers, hphase]
  rfl

theorem isPart_number (n : Int) : IsPart (toString n).toList (written (toString n).toList) [] :=
  ⟨(isNumeric_toString n).lexes, whole_written _, quotations_written _⟩

theorem written_ne_nil (n : Int) : written (toString n).toList ≠ [] :=
  List.map_eq_nil_iff.not.mpr (isNumeric_toString n).nonempty

theorem lexes_arguments (left right : List Char) {mark : List Char}
    (hleft : ∀ c ∈ left, isBlank c = true) (hright : ∀ c ∈ right, isBlank c = true)
    (hmark : Lexes mark [.comma]) {texts : List (List Char)} {lss : List (List Lexeme)}
    (h : List.Forall₂ Lexes texts lss) :
    Lexes (left ++ (mark.intercalate texts ++ right)) ([.comma].intercalate lss) := by
  have hinside := (lexes_intercalate hmark h).append (lexes_blanks hright)
  have hlexes := (lexes_blanks hleft).append hinside
  rwa [List.append_nil, List.nil_append] at hlexes

theorem isPart_slow (span : Int) :
    IsPart (".slow".toList ++ '(' :: ((toString span).toList ++ [')']))
      (called ".slow" (written (toString span).toList)) [] := by
  have hcall := isPart_called ".slow" (isSign_of_all (by decide))
    (isPart_number span).lexes (isPart_number span).whole.balanced
  rwa [quotations_written] at hcall

theorem readCall_slow (span : Int) (name : String) :
    readCall name (called name (written (toString span).toList)) =
      some ([written (toString span).toList], []) :=
  readCall_one (whole_written _) (written_ne_nil span)

/-- A text that reads as an argument of a call. -/
structure IsArgument (cs : List Char) (ls : List Lexeme) : Prop where
  lexes : Lexes cs ls
  whole : Whole ls
  ne_nil : ls ≠ []

theorem arguments_lexes {texts : List (List Char)} {lss : List (List Lexeme)}
    (h : List.Forall₂ IsArgument texts lss) : List.Forall₂ Lexes texts lss :=
  h.imp fun _ _ harg => harg.lexes

theorem arguments_whole {texts : List (List Char)} {lss : List (List Lexeme)}
    (h : List.Forall₂ IsArgument texts lss) : ∀ ls ∈ lss, Whole ls ∧ ls ≠ [] := by
  intro ls hls
  obtain ⟨_, _, harg⟩ := exists_of_forall₂_right h hls
  exact ⟨harg.whole, harg.ne_nil⟩

theorem arguments_balanced {texts : List (List Char)} {lss : List (List Lexeme)}
    (h : List.Forall₂ IsArgument texts lss) : Balanced ([.comma].intercalate lss) :=
  .intercalate fun ls hls => (arguments_whole h ls hls).1.balanced

/-- The expression of a segment plays it, whatever its layers are. -/
theorem segmentExpression_plays {rules : RuleSet} (pattern : Layer → String) {segment : Segment}
    {members : List String}
    (h : List.Forall₂ (fun layer text => ∃ ls, IsPart text.toList ls
      (layer.texts (pattern layer)) ∧ ls ≠ []) (rules.members segment) members) :
    ∃ ls, Lexes (segmentExpression members segment.span).toList ls ∧ Whole ls ∧
      PlaysSegment rules pattern segment ls := by
  by_cases hnone : rules.members segment = []
  · rw [hnone, List.forall₂_nil_left_iff] at h
    have hnumber := isPart_number segment.span
    have hcall := isPart_called "silence.slow" (isSign_of_all (by decide))
      hnumber.lexes hnumber.whole.balanced
    refine ⟨_, ?_, hcall.whole, ?_⟩
    · rw [h, segmentExpression_silent]
      exact hcall.lexes
    · rw [PlaysSegment, if_pos (by simp [hnone])]
      exact readCall_slow _ _
  · -- The margin of a member is blank, so the member reads as its expression does.
    have hindent : Lexes "    ".toList [] := lexes_blanks (by simp; decide)
    obtain ⟨lss, hplays, hlss⟩ := exists_forall₂
      (S := fun layer member => quotations member = layer.texts (pattern layer))
      (T := fun text member => IsArgument ("    ".toList ++ text.toList) member) h (by
        rintro layer _ text ⟨ls, hls, hne⟩
        exact ⟨ls, hls.quotes, hindent.append hls.lexes, hls.whole, hne⟩)
    have hargs : List.Forall₂ IsArgument (members.map fun m => "    ".toList ++ m.toList) lss :=
      List.forall₂_map_left_iff.mpr hlss
    have hmembers : members ≠ [] := by
      rintro rfl
      exact hnone (List.forall₂_nil_right_iff.mp h)
    have hlss : lss ≠ [] := by
      rintro rfl
      exact hnone (List.forall₂_nil_right_iff.mp hplays)
    have hcomma : Lexes ",\n".toList [.comma] :=
      (lexes_char (by decide) (by decide)).append (lexes_blanks (by simp; decide))
    have hinside := lexes_arguments "\n".toList "\n  ".toList
      (by simp; decide) (by simp; decide) hcomma (arguments_lexes hargs)
    have hstack := isPart_called "stack" (isSign_of_all (by decide)) hinside
      (arguments_balanced hargs)
    have hboth := hstack.append (isPart_slow segment.span)
    have hsounds : ¬ segment.isGap := fun hgap => hnone (members_of_isGap hgap rules)
    refine ⟨_, ?_, hboth.whole, ?_⟩
    · rw [segmentExpression_stack hmembers]
      exact hboth.lexes
    · rw [PlaysSegment, if_neg (by simp [hnone, hsounds])]
      exact ⟨lss, _, readCall_called hlss (arguments_whole hargs) _, readCall_slow _ _, hplays⟩

/-- A block of program text as an argument: a comment that tells the segment, and what plays
it. -/
def TellsSegment (rules : RuleSet) (pattern : Segment → Layer → String)
    (entry : Segment × Nat) (argument : List Lexeme) : Prop :=
  ∃ ls, argument = .comment (blockComment entry.2 entry.1).toList :: ls ∧
    PlaysSegment rules (pattern entry.1) entry.1 ls

theorem not_mem_blockComment (number : Nat) {segment : Segment}
    (h : ∀ phase ∈ segment.phase, '\n' ∉ phase.id.toList) :
    '\n' ∉ (blockComment number segment).toList := by
  have hnumeric : ∀ n : Int, '\n' ∉ (toString n).toList := by
    intro n hmem
    rcases mem_toString_int hmem with hc | hc
    · exact absurd hc (by decide)
    · exact absurd hc (by decide)
  have hnumber : '\n' ∉ (toString number).toList := hnumeric number
  have hplays : '\n' ∉ (if segment.isGap then "GAP" else "PHASE " ++ segment.id).toList := by
    cases hphase : segment.phase with
    | none => simp [Segment.isGap, hphase]
    | some phase => simpa [Segment.isGap, Segment.id, hphase] using h phase hphase
  simp only [blockComment, String.toList_append, List.mem_append, not_or]
  refine ⟨⟨⟨⟨⟨⟨⟨?_, hnumber⟩, ?_⟩, hplays⟩, ?_⟩, hnumeric _⟩, ?_⟩, hnumeric _⟩ <;> simp

theorem segmentComment_eq (number : Nat) (segment : Segment) :
    segmentComment number segment = "//" ++ blockComment number segment := by
  unfold segmentComment blockComment
  split <;> simp [← String.toList_inj]

theorem segmentBlock_tells {rules : RuleSet} {home : Table String} {rotate : Bool}
    {adjustments : Adjustments} {number : Nat} {segment : Segment} {block : String}
    (hid : ∀ phase ∈ segment.phase, '\n' ∉ phase.id.toList)
    (h : segmentBlock rules home rotate adjustments number segment = .ok block) :
    ∃ argument, IsArgument block.toList argument ∧
      TellsSegment rules (fun s layer => patternIn rotate home layer s.index) (segment, number)
        argument := by
  obtain ⟨members, hmembers, rfl⟩ := segmentBlock_eq_ok.mp h
  obtain ⟨ls, hlexes, hwhole, hplays⟩ := segmentExpression_plays
    (fun layer => patternIn rotate home layer segment.index)
    (hmembers.imp fun layer text htext => Layer.expression_isPart htext)
  have hcomment := lexes_comment (not_mem_blockComment number hid)
  have hindent : Lexes "  ".toList [] := lexes_blanks (by simp; decide)
  have hblock := hcomment.append (hindent.append hlexes)
  have htext : (segmentComment number segment ++ "\n  " ++
      segmentExpression members segment.span).toList =
        '/' :: '/' :: ((blockComment number segment).toList ++ ['\n']) ++
          ("  ".toList ++ (segmentExpression members segment.span).toList) := by
    simp [segmentComment_eq]
  rw [htext]
  have hmark : Whole [.comment (blockComment number segment).toList] := whole_mark rfl nofun
  exact ⟨_, ⟨hblock, hmark.append hwhole, List.cons_ne_nil _ _⟩, ls, rfl, hplays⟩

end Blocks

section Programs

def headerLexemes (bpm : Binary64) : List Lexeme :=
  called "setcps" (written (cyclesText bpm).toList) ++ [.sign ';']

theorem isPart_tempoHeader {bpm : Binary64} (hfinite : bpm.isFinite) (hpos : ¬ bpm ≤ 0) :
    IsPart (tempoHeader bpm).toList (headerLexemes bpm) [] := by
  have hnumeral := numeral_cyclesText hfinite hpos
  have hsigns : ∀ c ∈ (cyclesText bpm).toList, IsSign c := by
    intro c hc
    rcases hnumeral.mem c hc with hdigit | rfl
    · exact isSign_of_isAsciiDigit hdigit
    · decide
  have hcall := isPart_called "setcps" (isSign_of_all (by decide)) (lexes_signs hsigns)
    (whole_written _).balanced
  rw [quotations_written] at hcall
  have hend : IsPart [';'] [.sign ';'] [] :=
    ⟨lexes_signs (by simp; decide), whole_mark rfl nofun, rfl⟩
  have hheader := hcall.append hend
  simpa [tempoHeader, headerLexemes] using hheader

theorem sequence_lexes {blocks : List String} {arguments : List (List Lexeme)}
    (h : List.Forall₂ (fun block argument => IsArgument block.toList argument) blocks arguments) :
    IsPart (sequence blocks).toList (called "cat" ([.comma].intercalate arguments))
      (arguments.flatMap quotations) := by
  have hargs : List.Forall₂ IsArgument (blocks.map String.toList) arguments :=
    List.forall₂_map_left_iff.mpr h
  have hcomma : Lexes ",\n  ".toList [.comma] :=
    (lexes_char (by decide) (by decide)).append (lexes_blanks (by simp; decide))
  have hinside := lexes_arguments "\n  ".toList "\n".toList
    (by simp; decide) (by simp; decide) hcomma (arguments_lexes hargs)
  have hcat := isPart_called "cat" (isSign_of_all (by decide)) hinside
    (arguments_balanced hargs)
  rw [quotations_intercalate] at hcat
  rwa [toList_sequence]

/-- What a reader finds in a program: its tempo, then one call with an argument for each segment
of the piece. -/
structure RuleSet.ReadsAs (rules : RuleSet) (bpm bars : Binary64) (seed : String)
    (adjustments : Adjustments) (code : String) (n : Int) (segments : List Segment)
    (arguments : List (List Lexeme)) : Prop where
  bars_eq : safeBars bars = .ok n
  segments_eq : rules.segments n = .ok segments
  sum_span : (segments.map Segment.span).sum = n
  parts : ∃ ls, lexemes code.toList = some (headerLexemes bpm ++ ls) ∧
    Balanced (headerLexemes bpm ++ ls) ∧ readCall "cat" ls = some (arguments, [])
  tells : List.Forall₂ (TellsSegment rules fun segment layer =>
      patternIn (adjustments.rotate.getD rules.rotate) (homePatterns (.ofSeed seed) rules.layers)
        layer segment.index)
    (segments.zipIdx 1) arguments

/-- Every program reads so, whatever stands in its patterns: an argument is a comment with its
number and bars, and silence or a stack with one member for each layer that plays, and a member
quotes just the pattern that was chosen for its layer, and its instrument. -/
theorem RuleSet.program_reads {rules : RuleSet} {bpm bars : Binary64} {seed code : String}
    {adjustments : Adjustments} (hids : ∀ phase ∈ rules.phases, '\n' ∉ phase.id.toList)
    (h : rules.program bpm bars seed adjustments = .ok code) :
    ∃ n segments arguments,
      rules.ReadsAs bpm bars seed adjustments code n segments arguments := by
  obtain ⟨hfinite, hpos, n, segments, blocks, hn, hsegments, hblocks, rfl⟩ := program_eq_ok.mp h
  have hcovers := RuleSet.segments_covers hsegments (one_le_safeBars hn)
  obtain ⟨arguments, htells, hargs⟩ := exists_forall₂
    (T := fun block argument => IsArgument block.toList argument)
    (segmentBlocks_eq_ok.mp hblocks) (by
      rintro ⟨segment, number⟩ hentry block hblock
      have hentry := List.fst_mem_of_mem_zipIdx hentry
      obtain ⟨argument, harg, htells⟩ := segmentBlock_tells (fun phase hphase =>
        hids phase (RuleSet.segments_phase_mem hsegments hentry hphase)) hblock
      exact ⟨argument, htells, harg⟩)
  have hsequence := sequence_lexes hargs
  have hfeed : Lexes ['\n'] [] := lexes_blanks (by simp; decide)
  have hheader := isPart_tempoHeader hfinite hpos
  have hcode := hheader.lexes.append (hfeed.append hsequence.lexes)
  -- There is a bar at least, so there is a segment and the call has an argument.
  have hne : arguments ≠ [] := by
    rintro rfl
    have hnil := List.zipIdx_eq_nil_iff.mp (List.forall₂_nil_right_iff.mp htells)
    exact hcovers.ne_nil (one_le_safeBars hn) hnil
  have hargs' : List.Forall₂ IsArgument (blocks.map String.toList) arguments :=
    List.forall₂_map_left_iff.mpr hargs
  have hsum : (segments.map Segment.span).sum = n := by
    rw [hcovers.sum_span]
    omega
  have hread := @readCall_whole "cat" arguments hne (arguments_whole hargs')
  refine ⟨n, segments, arguments, hn, hsegments, hsum, ⟨_, ?_, ?_, hread⟩, htells⟩
  · simpa using hcode.read
  · exact hheader.whole.balanced.append hsequence.whole.balanced

/-- Quotes, brackets and a comment in a pattern, and a layer that the rules do not have. -/
def quoting : RuleSet where
  layers := [
    { id := "lead", kind := .melodic, patterns := [⟨"c4 \"), // (\\\n", 1, by decide +kernel⟩],
      instrument := some "saw\"" },
    { id := "drums", kind := .drums, patterns := [⟨"bd\\", 1, by decide +kernel⟩] }]
  phases := [{ id := "a), (b", layers := ["lead", "bass", "drums"], share := some (0, 1) }]
  ids_nodup := by decide

theorem quoting_program : ∃ code, quoting.program 120 4 "seed" {} = .ok code := by
  have hbars : safeBars 4 = .ok 4 := by decide +kernel
  have hsegments := @segments_of_single quoting _ rfl rfl (by decide +kernel) 4
  rw [cover_single _ (by decide)] at hsegments
  obtain ⟨blocks, hblocks⟩ := eq_ok_of_isOk (x := segmentBlocks quoting
    (homePatterns (.ofSeed "seed") quoting.layers) false {} 1
    [⟨quoting.phases.head?, 1, 4, 0⟩]) (by decide +kernel)
  exact ⟨_, program_eq_ok.mpr
    ⟨by decide +kernel, by decide +kernel, 4, _, blocks, hbars, hsegments, hblocks, rfl⟩⟩

theorem quoting_reads : (∀ phase ∈ quoting.phases, '\n' ∉ phase.id.toList) ∧
    ∃ code, quoting.program 120 4 "seed" {} = .ok code ∧ ∃ n segments arguments,
      quoting.ReadsAs 120 4 "seed" {} code n segments arguments := by
  have hids : ∀ phase ∈ quoting.phases, '\n' ∉ phase.id.toList := by simp [quoting]
  obtain ⟨code, hcode⟩ := quoting_program
  exact ⟨hids, code, hcode, RuleSet.program_reads hids hcode⟩

end Programs

end PatternLoom
