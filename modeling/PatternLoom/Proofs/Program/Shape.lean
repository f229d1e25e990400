import Mathlib
import PatternLoom.Program
import PatternLoom.Proofs.Decimal.Printed
import PatternLoom.Proofs.Result
import PatternLoom.Proofs.Timeline.Cover

/-! What a program text is made of: a tempo statement and one block for each segment, in a
block one expression for each layer, and in an expression the quoted pattern before calls
that hold only numbers. -/

namespace PatternLoom

section Numbers

/-- Digits, points and signs. -/
structure IsNumeric (cs : List Char) : Prop where
  nonempty : cs ≠ []
  chars : ∀ c ∈ cs, isAsciiDigit c = true ∨ c = '.' ∨ c = '-'

theorem isNumeric_toString (n : Int) : IsNumeric (toString n).toList where
  nonempty := by
    rcases toList_toString_int n with ⟨_, htext⟩ | ⟨_, htext⟩
    · rw [htext]
      exact Decimal.digits_ne_nil _
    · rw [htext]
      exact List.cons_ne_nil _ _
  chars c hc := (mem_toString_int hc).symm.imp_right .inr

theorem isNumeric_compact (x : Binary64) : IsNumeric (Decimal.compact x).toList := by
  have hzero : IsNumeric "0".toList := ⟨by decide, by simp; decide⟩
  cases x with
  | nan => exact hzero
  | infinity _ => exact hzero
  | finite negative u hu =>
    have hdigits := Decimal.digits_ne_nil (Decimal.scaled 3 u / 1000)
    have hplaces : ∀ c ∈ ((Decimal.paddedDigits 3 (Decimal.scaled 3 u % 1000)).reverse.dropWhile
        (· = '0')).reverse, isAsciiDigit c = true := by
      intro c hc
      have hmem := (List.dropWhile_sublist _).mem (List.mem_reverse.mp hc)
      rw [List.mem_reverse] at hmem
      exact Decimal.isAsciiDigit_of_mem_paddedDigits hmem
    unfold Decimal.compact
    simp only [String.toList_append, String.toList_ofList]
    refine ⟨by simp [hdigits], fun c hc => ?_⟩
    rcases List.mem_append.mp hc with hc | hc
    · rcases List.mem_append.mp hc with hsign | hwhole
      · unfold Decimal.signText at hsign
        split at hsign
        · exact .inr (.inr (by simpa using hsign))
        · simp at hsign
      · exact .inl (Decimal.isAsciiDigit_of_mem_digits hwhole)
    · split at hc
      · simp at hc
      · simp only [String.toList_append, String.toList_ofList] at hc
        rcases List.mem_append.mp hc with hpoint | hplace
        · exact .inr (.inl (by simpa using hpoint))
        · exact .inl (hplaces c hplace)

end Numbers

section Expressions

/-- A call with numbers that is put behind an expression. -/
inductive LevelCall : List Char → Prop where
  | intro {name : String} {numbers : List (List Char)}
    (known : name ∈ [".gain", ".slow", ".fast", ".swingBy"]) (nonempty : numbers ≠ [])
    (numeric : ∀ n ∈ numbers, IsNumeric n) :
    LevelCall (name.toList ++ '(' :: ([',', ' '].intercalate numbers ++ [')']))

/-- Calls with numbers, one behind the other. -/
def LevelCalls (cs : List Char) : Prop :=
  ∃ calls : List (List Char), cs = calls.flatten ∧ ∀ call ∈ calls, LevelCall call

theorem levelCalls_nil : LevelCalls [] := ⟨[], rfl, nofun⟩

theorem LevelCall.levelCalls {cs : List Char} (h : LevelCall cs) : LevelCalls cs :=
  ⟨[cs], by simp, by simpa using h⟩

theorem LevelCalls.append {cs ds : List Char} (hc : LevelCalls cs) (hd : LevelCalls ds) :
    LevelCalls (cs ++ ds) := by
  obtain ⟨before, rfl, hbefore⟩ := hc
  obtain ⟨after, rfl, hafter⟩ := hd
  refine ⟨before ++ after, List.flatten_append.symm, fun call hcall => ?_⟩
  exact (List.mem_append.mp hcall).elim (hbefore call) (hafter call)

theorem levelCalls_levelCall {name : String} {step x : Binary64} {text : String}
    (hname : "." ++ name ∈ [".gain", ".slow", ".fast", ".swingBy"])
    (h : levelCall name step x = .ok text) : LevelCalls text.toList := by
  simp only [levelCall, bind_eq_ok, pure_eq_ok] at h
  obtain ⟨y, _, rfl⟩ := h
  have hcall := @LevelCall.intro ("." ++ name) [(Decimal.compact y).toList] hname
    (List.cons_ne_nil _ _) (List.forall_mem_singleton.mpr (isNumeric_compact y))
  refine LevelCall.levelCalls ?_
  rw [List.intercalate_singleton] at hcall
  simpa using hcall

theorem levelCalls_optionalCall {name : String} {step : Binary64} {level : Option Binary64}
    {text : String} (hname : "." ++ name ∈ [".gain", ".slow", ".fast", ".swingBy"])
    (h : optionalCall name step level = .ok text) : LevelCalls text.toList := by
  cases level with
  | none =>
    obtain rfl := Except.ok.inj h
    exact levelCalls_nil
  | some x => exact levelCalls_levelCall hname h

theorem levelCalls_groove {groove : Groove} {text : String} (h : groove.call = .ok text) :
    LevelCalls text.toList := by
  simp only [Groove.call, bind_eq_ok, pure_eq_ok] at h
  obtain ⟨amount, _, slots, _, rfl⟩ := h
  have hcall := @LevelCall.intro ".swingBy"
    [(Decimal.compact amount).toList, (toString slots).toList] (by decide) (List.cons_ne_nil _ _)
    (List.forall_mem_cons.mpr ⟨isNumeric_compact amount,
      List.forall_mem_singleton.mpr (isNumeric_toString slots)⟩)
  refine LevelCall.levelCalls ?_
  simpa using hcall

theorem Layer.expression_parts {layer : Layer} {pattern text : String} {levels : Levels}
    {adjustments : Adjustments} (h : layer.expression pattern levels adjustments = .ok text) :
    ∃ calls, text.toList = (layer.source pattern).toList ++ calls ∧ LevelCalls calls := by
  simp only [Layer.expression, bind_eq_ok] at h
  obtain ⟨gain, hgain, slow, hslow, fast, hfast, h⟩ := h
  -- The call that swings a layer comes last, and is left out without a groove.
  have hcalls : ∀ swing : String, LevelCalls swing.toList →
      (layer.source pattern ++ gain ++ slow ++ fast ++ swing) = text →
      ∃ calls, text.toList = (layer.source pattern).toList ++ calls ∧ LevelCalls calls := by
    rintro swing hswing rfl
    refine ⟨gain.toList ++ (slow.toList ++ (fast.toList ++ swing.toList)), ?_, ?_⟩
    · simp only [String.toList_append, List.append_assoc]
    · exact (levelCalls_levelCall (by decide) hgain).append
        ((levelCalls_optionalCall (by decide) hslow).append
          ((levelCalls_optionalCall (by decide) hfast).append hswing))
  split at h
  · split at h
    · obtain ⟨swing, hswing, h⟩ := bind_eq_ok.mp h
      exact hcalls swing (levelCalls_groove hswing) (pure_eq_ok.mp h)
    · exact hcalls "" levelCalls_nil (pure_eq_ok.mp h)
  · exact hcalls "" levelCalls_nil (pure_eq_ok.mp h)

end Expressions

section Patterns

/-- The texts a layer is written to play. -/
def Layer.values (layer : Layer) : List String := layer.patterns.map PatternOption.value

theorem settle_mem {α : Type} {roll : Binary64} {options : List (α × Binary64)} {a : α}
    (h : settle roll options = some a) : a ∈ options.map (·.1) := by
  fun_induction settle roll options with
  | case1 => cases h
  | case2 roll value weight =>
    obtain rfl := Option.some.inj h
    exact List.mem_cons_self
  | case3 roll value weight rest _ _ =>
    obtain rfl := Option.some.inj h
    exact List.mem_cons_self
  | case4 roll value weight rest _ _ ih => exact List.mem_cons_of_mem _ (ih h)

theorem pickPattern_mem (layer : Layer) (s : Stream) :
    (layer.pickPattern s).1 = rest ∨ (layer.pickPattern s).1 ∈ layer.values := by
  cases hdraw : s.weighted (layer.patterns.map fun option => (option.value, option.weight)) with
  | mk drawn after =>
    cases drawn with
    | none => exact .inl (by simp [Layer.pickPattern, hdraw])
    | some p =>
      have hmem : p ∈ layer.values := by
        unfold Stream.weighted at hdraw
        split at hdraw
        · cases hdraw
        · have hsettle := settle_mem (Prod.mk.inj hdraw).1
          rwa [List.map_map] at hsettle
      by_cases hempty : p.isEmpty
      · exact .inl (by simp [Layer.pickPattern, hdraw, hempty])
      · exact .inr (by simpa [Layer.pickPattern, hdraw, hempty] using hmem)

theorem homePatterns_get? {s : Stream} {layers : List Layer} {id pattern : String}
    (h : (homePatterns s layers).get? id = some pattern) :
    pattern = rest ∨ ∃ layer ∈ layers, pattern ∈ layer.values := by
  induction layers generalizing s with
  | nil => cases h
  | cons layer layers ih =>
    rw [homePatterns, Table.get?] at h
    split at h
    · obtain rfl := Option.some.inj h
      exact (pickPattern_mem layer s).imp_right fun hmem => ⟨layer, List.mem_cons_self, hmem⟩
    · refine (ih h).imp_right ?_
      rintro ⟨other, hother, hmem⟩
      exact ⟨other, List.mem_cons_of_mem _ hother, hmem⟩

/-- The pattern of a layer is a rest or one that a layer is written to play. -/
theorem patternIn_mem {s : Stream} {layers : List Layer} {layer : Layer} (hlayer : layer ∈ layers)
    (rotate : Bool) (index : Nat) :
    patternIn rotate (homePatterns s layers) layer index = rest ∨
      ∃ other ∈ layers, patternIn rotate (homePatterns s layers) layer index ∈ other.values := by
  unfold patternIn
  dsimp only
  split
  · rename_i option hoption
    exact .inr ⟨layer, hlayer, List.mem_map_of_mem (List.mem_of_getElem? hoption)⟩
  · cases hget : (homePatterns s layers).get? layer.id with
    | none => exact .inl rfl
    | some pattern => exact homePatterns_get? hget

end Patterns

section Programs

variable {rules : RuleSet} {home : Table String} {rotate : Bool} {adjustments : Adjustments}
  {number : Nat}

theorem layer_of_mem_members {segment : Segment} {layer : Layer}
    (h : layer ∈ rules.members segment) : layer ∈ rules.layers := by
  obtain ⟨id, _, hid⟩ := List.mem_filterMap.mp h
  exact List.mem_of_find?_eq_some hid

theorem segmentBlock_eq_ok {segment : Segment} {block : String} :
    segmentBlock rules home rotate adjustments number segment = .ok block ↔
      ∃ members, List.Forall₂ (fun layer text =>
          layer.expression (patternIn rotate home layer segment.index)
            (resolveLevels layer segment.id segment.levels adjustments) adjustments = .ok text)
          (rules.members segment) members ∧
        block = segmentComment number segment ++ "\n  " ++
          segmentExpression members segment.span := by
  simp only [segmentBlock, bind_eq_ok, pure_eq_ok, mapM_eq_ok, @eq_comm _ _ block]

theorem segmentBlocks_eq_ok {segments : List Segment} {blocks : List String} :
    segmentBlocks rules home rotate adjustments number segments = .ok blocks ↔
      List.Forall₂ (fun entry block =>
        segmentBlock rules home rotate adjustments entry.2 entry.1 = .ok block)
        (segments.zipIdx number) blocks := by
  induction segments generalizing number blocks with
  | nil =>
    rw [List.zipIdx_nil, List.forall₂_nil_left_iff, segmentBlocks, Except.ok.injEq, eq_comm]
  | cons segment segments ih =>
    simp only [segmentBlocks, bind_eq_ok, pure_eq_ok, ih, List.zipIdx_cons,
      List.forall₂_cons_left_iff]
    constructor
    · rintro ⟨block, hblock, blocks', hblocks, rfl⟩
      exact ⟨block, blocks', hblock, hblocks, rfl⟩
    · rintro ⟨block, blocks', hblock, hblocks, rfl⟩
      exact ⟨block, hblock, blocks', hblocks, rfl⟩

/-- A program is a tempo statement and a block for each segment in sequence. -/
theorem program_eq_ok {bpm bars : Binary64} {seed code : String} :
    rules.program bpm bars seed adjustments = .ok code ↔
      bpm.isFinite = true ∧ ¬ bpm ≤ 0 ∧ ∃ n segments blocks, safeBars bars = .ok n ∧
        rules.segments n = .ok segments ∧
        segmentBlocks rules (homePatterns (.ofSeed seed) rules.layers)
          (adjustments.rotate.getD rules.rotate) adjustments 1 segments = .ok blocks ∧
        code = tempoHeader bpm ++ "\n" ++ sequence blocks := by
  have htempo : (!bpm.isFinite || decide (bpm ≤ 0)) = false ↔ bpm.isFinite = true ∧ ¬ bpm ≤ 0 := by
    simp
  rw [← and_assoc, ← htempo, RuleSet.program]
  cases !bpm.isFinite || decide (bpm ≤ 0) with
  | true =>
    simp only [if_true, Bool.true_eq_false, false_and, iff_false]
    exact nofun
  | false =>
    simp only [Bool.false_eq_true, if_false, true_and, bind_eq_ok, pure_eq_ok]
    constructor
    · rintro ⟨n, hn, segments, hsegments, blocks, hblocks, rfl⟩
      exact ⟨n, segments, blocks, hn, hsegments, hblocks, rfl⟩
    · rintro ⟨n, segments, blocks, hn, hsegments, hblocks, rfl⟩
      exact ⟨n, hn, segments, hsegments, blocks, hblocks, rfl⟩

theorem one_le_safeBars {bars : Binary64} {n : Int} (h : safeBars bars = .ok n) : 1 ≤ n := by
  unfold safeBars at h
  split at h
  · obtain ⟨_, _, h⟩ := bind_eq_ok.mp h
    obtain rfl := pure_eq_ok.mp h
    exact le_max_left _ _
  · obtain rfl := Except.ok.inj h
    exact le_rfl

/-- The program of a single phase over the whole piece is one block. -/
theorem program_of_single {phase : Phase} (hp : rules.phases = [phase]) (hs : phase.share.isSome)
    (hn : (startShare phase).isNan = false) {bpm bars : Binary64} {seed code : String} :
    rules.program bpm bars seed adjustments = .ok code ↔
      bpm.isFinite = true ∧ ¬ bpm ≤ 0 ∧ ∃ n block, safeBars bars = .ok n ∧
        segmentBlock rules (homePatterns (.ofSeed seed) rules.layers)
          (adjustments.rotate.getD rules.rotate) adjustments 1 ⟨some phase, 1, n, 0⟩ = .ok block ∧
        code = tempoHeader bpm ++ "\n" ++ sequence [block] := by
  have hsegments : ∀ n, safeBars bars = .ok n →
      rules.segments n = .ok [⟨some phase, 1, n, 0⟩] := by
    intro n hbars
    rw [segments_of_single hp hs hn, cover_single phase (one_le_safeBars hbars)]
  rw [program_eq_ok]
  refine and_congr_right fun _ => and_congr_right fun _ => ?_
  constructor
  · rintro ⟨n, segments, blocks, hbars, hseg, hblocks, rfl⟩
    rw [hsegments n hbars] at hseg
    obtain rfl := Except.ok.inj hseg
    simp only [segmentBlocks, bind_eq_ok, pure_eq_ok] at hblocks
    obtain ⟨block, hblock, rest, hrest, rfl⟩ := hblocks
    obtain rfl := Except.ok.inj hrest
    exact ⟨n, block, hbars, hblock, rfl⟩
  · rintro ⟨n, block, hbars, hblock, rfl⟩
    refine ⟨n, _, [block], hbars, hsegments n hbars, ?_, rfl⟩
    exact bind_eq_ok.mpr ⟨block, hblock, rfl⟩

end Programs

section Texts

theorem segmentExpression_silent (span : Int) : (segmentExpression [] span).toList =
    "silence.slow".toList ++ '(' :: ((toString span).toList ++ [')']) := by
  simp [segmentExpression]

theorem segmentExpression_stack {members : List String} (h : members ≠ []) (span : Int) :
    (segmentExpression members span).toList =
      "stack".toList ++ '(' :: (("\n".toList ++ (",\n".toList.intercalate
        (members.map fun m => "    ".toList ++ m.toList) ++ "\n  ".toList)) ++ [')']) ++
      (".slow".toList ++ '(' :: ((toString span).toList ++ [')'])) := by
  simp [segmentExpression, h, String.toList_intercalate, Function.comp_def]

theorem toList_sequence (blocks : List String) : (sequence blocks).toList =
    "cat".toList ++ '(' :: (("\n  ".toList ++ (",\n  ".toList.intercalate
      (blocks.map String.toList) ++ "\n".toList)) ++ [')']) := by
  simp [sequence, String.toList_intercalate]

end Texts

end PatternLoom
