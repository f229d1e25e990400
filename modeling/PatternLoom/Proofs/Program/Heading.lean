import Mathlib
import PatternLoom.Proofs.Program.Shape
import PatternLoom.Proofs.Tempo.Header

/-! Programs whose only tempo is their own. Numbers and glue have no tempo words, so a program
has none behind its statement if its names, patterns and instruments have none. -/

namespace PatternLoom

open Tempo

/-- No name, pattern or instrument of the rules has a tempo word in it. -/
structure RuleSet.Untimed (rules : RuleSet) : Prop where
  ids : ∀ phase ∈ rules.phases, Tempo.Untimed phase.id.toList
  patterns : ∀ layer ∈ rules.layers, ∀ value ∈ layer.values, Tempo.Untimed value.toList
  instruments : ∀ layer ∈ rules.layers, ∀ instrument ∈ layer.instrument,
    Tempo.Untimed instrument.toList

section Expressions

theorem foreign_of_isAsciiDigit {c : Char} (h : isAsciiDigit c = true) : Foreign c := by
  have hrange : 48 ≤ c.toNat ∧ c.toNat < 58 := by
    have hbounds : 48 ≤ c.toNat ∧ c.toNat ≤ 57 := by
      simpa [isAsciiDigit, Char.le_def, UInt32.le_iff_toNat_le] using h
    omega
  have hdigits : ∀ n < 58, 48 ≤ n → Foreign (Char.ofNat n) := by decide
  have hforeign := hdigits c.toNat hrange.2 hrange.1
  rwa [Char.ofNat_toNat] at hforeign

theorem IsNumeric.foreign {cs : List Char} (h : IsNumeric cs) : ∀ c ∈ cs, Foreign c := by
  intro c hc
  rcases h.chars c hc with hdigit | rfl | rfl
  · exact foreign_of_isAsciiDigit hdigit
  · decide
  · decide

theorem sealed_number (n : Int) : Sealed (toString n).toList :=
  sealed_of_foreign (isNumeric_toString n).foreign

theorem LevelCall.sealed {cs : List Char} (h : LevelCall cs) : Sealed cs := by
  obtain @⟨name, numbers, known, hne, hnumbers⟩ := h
  have hname : Sealed (name.toList ++ ['(']) := by
    simp only [List.mem_cons, List.not_mem_nil, or_false] at known
    rcases known with rfl | rfl | rfl | rfl <;> decide
  have hinside := sealed_intercalate [',', ' '] (by decide)
    fun n hn => sealed_of_foreign (hnumbers n hn).foreign
  have hclose : Sealed [')'] := by decide
  rw [List.append_cons]
  exact hname.append (hinside.append hclose)

theorem LevelCalls.sealed {cs : List Char} (h : LevelCalls cs) : Sealed cs := by
  obtain ⟨calls, rfl, hcalls⟩ := h
  induction calls with
  | nil => exact sealed_nil
  | cons call calls ih =>
    obtain ⟨hcall, hcalls⟩ := List.forall_mem_cons.mp hcalls
    exact hcall.sealed.append (ih hcalls)

theorem untimed_source {layer : Layer} {pattern : String} (hpattern : Tempo.Untimed pattern.toList)
    (hinstrument : ∀ instrument ∈ layer.instrument, Tempo.Untimed instrument.toList) :
    Tempo.Untimed (layer.source pattern).toList := by
  unfold Layer.source
  cases hlayer : layer.instrument with
  | none =>
    have hopen : Tempo.Untimed "s(".toList := by decide
    simp only [String.toList_append]
    exact (hopen.append (sealed_literal hpattern)).append (by decide)
  | some instrument =>
    have hopen : Tempo.Untimed "note(".toList := by decide
    have hsound : Sealed ").s(".toList := by decide
    simp only [String.toList_append]
    exact (((hopen.append (sealed_literal hpattern)).append hsound).append
      (sealed_literal (hinstrument instrument hlayer))).append (by decide)

theorem untimed_expression {layer : Layer} {pattern text : String} {levels : Levels}
    {adjustments : Adjustments} (h : layer.expression pattern levels adjustments = .ok text)
    (hpattern : Tempo.Untimed pattern.toList)
    (hinstrument : ∀ instrument ∈ layer.instrument, Tempo.Untimed instrument.toList) :
    Tempo.Untimed text.toList := by
  obtain ⟨calls, htext, hcalls⟩ := Layer.expression_parts h
  rw [htext]
  exact (untimed_source hpattern hinstrument).append hcalls.sealed

end Expressions

section Blocks

theorem untimed_segmentExpression {members : List String} (span : Int)
    (h : ∀ text ∈ members, Tempo.Untimed text.toList) :
    Tempo.Untimed (segmentExpression members span).toList := by
  have hclose : Sealed [')'] := by decide
  have hnumber := (sealed_number span).append hclose
  by_cases hnone : members = []
  · rw [hnone, segmentExpression_silent]
    exact Untimed.called (by decide) hnumber
  · have hmembers : ∀ text ∈ members.map (fun m => "    ".toList ++ m.toList),
        Tempo.Untimed text := by
      intro text htext
      obtain ⟨m, hm, rfl⟩ := List.mem_map.mp htext
      exact (h m hm).foreign_append (by simp; decide)
    have hinside := sealed_arguments "\n".toList ",\n".toList "\n  ".toList
      ⟨by decide, by simp; decide⟩ ⟨by decide, by simp; decide⟩
      (by simp; decide) hmembers
    have hslow : Sealed (".slow(".toList) := by decide
    rw [segmentExpression_stack hnone]
    exact (Untimed.called (by decide) (hinside.append hclose)).append
      (by simpa using hslow.append hnumber)

theorem sealed_segmentComment (number : Nat) {segment : Segment}
    (h : ∀ phase ∈ segment.phase, Tempo.Untimed phase.id.toList) :
    Sealed (segmentComment number segment).toList := by
  have hnumber : Sealed (toString number).toList := sealed_number number
  have hopen : Sealed "// ".toList := by decide
  have hdash : Sealed "-".toList := by decide
  have hplays : Sealed (if segment.isGap then ". GAP " else
      ". PHASE " ++ segment.id ++ " ").toList := by
    cases hphase : segment.phase with
    | none =>
      simp only [Segment.isGap, hphase, Option.isNone_none, if_true]
      decide
    | some phase =>
      have hphrase : Sealed ". PHASE".toList := by decide
      have hname : Sealed (' ' :: phase.id.toList) := .cons (h phase hphase) (by decide)
      have hspace : Sealed " ".toList := by decide
      simpa [Segment.isGap, Segment.id, hphase] using (hphrase.append hname).append hspace
  unfold segmentComment
  simp only [String.toList_append]
  exact ((((hopen.append hnumber).append hplays).append (sealed_number _)).append hdash).append
    (sealed_number _)

theorem sealed_segmentBlock {rules : RuleSet} (hrules : rules.Untimed) {s : Stream} {rotate : Bool}
    {adjustments : Adjustments} {number : Nat} {segment : Segment} {block : String}
    (hid : ∀ phase ∈ segment.phase, Tempo.Untimed phase.id.toList)
    (h : segmentBlock rules (homePatterns s rules.layers) rotate adjustments number segment =
      .ok block) :
    Tempo.Untimed block.toList := by
  obtain ⟨members, hmembers, rfl⟩ := segmentBlock_eq_ok.mp h
  have huntimed : ∀ text ∈ members, Tempo.Untimed text.toList := by
    intro text htext
    obtain ⟨layer, hlayer, hexpression⟩ := exists_of_forall₂_right hmembers htext
    have hmem := layer_of_mem_members hlayer
    refine untimed_expression hexpression ?_ (hrules.instruments layer hmem)
    rcases patternIn_mem (s := s) hmem rotate segment.index with hrest | ⟨other, hother, hvalue⟩
    · rw [hrest]
      decide
    · exact hrules.patterns other hother _ hvalue
  have hexpression := untimed_segmentExpression segment.span huntimed
  have hcomment := sealed_segmentComment number hid
  rw [String.toList_append, String.toList_append, List.append_assoc]
  exact hcomment.untimed.append (.foreign_append (by decide) (by simp; decide) hexpression)

end Blocks

section Programs

theorem isBody_sequence {blocks : List String} (h : ∀ block ∈ blocks, Tempo.Untimed block.toList) :
    IsBody (sequence blocks) := by
  have hclose : Sealed [')'] := by decide
  have hinside := sealed_arguments "\n  ".toList ",\n  ".toList "\n".toList
    ⟨by decide, by simp; decide⟩ ⟨by decide, by simp; decide⟩
    (by simp; decide) (List.forall_mem_map.mpr h)
  refine ⟨?_, ?_, ?_⟩
  · rw [toList_sequence]
    exact ⟨_, rfl⟩
  · rw [toList_sequence, ← List.cons_append, ← List.append_assoc, List.getLast?_append]
    rfl
  · rw [toList_sequence]
    exact Untimed.called (by decide) (hinside.append hclose)

theorem RuleSet.Untimed.headed {rules : RuleSet} (hrules : rules.Untimed) {bpm bars : Binary64}
    {seed code : String} {adjustments : Adjustments}
    (h : rules.program bpm bars seed adjustments = .ok code) :
    ∃ body, IsBody body ∧ Headed bpm code body := by
  obtain ⟨hfinite, hpos, n, segments, blocks, hn, hsegments, hblocks, rfl⟩ := program_eq_ok.mp h
  have hbody : IsBody (sequence blocks) := by
    refine isBody_sequence fun block hblock => ?_
    obtain ⟨⟨segment, number⟩, hentry, htext⟩ :=
      exists_of_forall₂_right (segmentBlocks_eq_ok.mp hblocks) hblock
    exact sealed_segmentBlock hrules (fun phase hphase => hrules.ids phase
      (RuleSet.segments_phase_mem hsegments (List.fst_mem_of_mem_zipIdx hentry) hphase)) htext
  exact ⟨_, hbody, hbody.headed hfinite hpos⟩

end Programs

end PatternLoom
