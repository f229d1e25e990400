import Mathlib
import PatternLoom.Arrangement
import PatternLoom.Proofs.Program.Shape

/-! What an arrangement is made of: the bars of its sections, and for each of them a program of
the template, on the phases of the template or on one of them. -/

namespace PatternLoom

/-- What a margin makes of a character. -/
def indented (margin : List Char) (c : Char) : List Char :=
  if c = '\n' then '\n' :: margin else [c]

theorem toList_indent (width : Nat) (text : String) : (indent width text).toList =
    List.replicate width ' ' ++ text.toList.flatMap (indented (List.replicate width ' ')) := by
  rw [indent, String.toList_ofList]
  rfl

/-- A section as a member of the sequence of sections. -/
def ArrangedSection.expression (s : ArrangedSection) : String :=
  if s.code.isEmpty then "silence" else "(" ++ s.code ++ ")"

/-- The sequence of sections, which is all of an arrangement but its tempo. -/
def arrangedSequence (sections : List ArrangedSection) : String :=
  "cat(\n" ++ indent 2 (",\n".intercalate (sections.map ArrangedSection.expression)) ++ "\n)"

theorem arrangedProgram_eq (bpm : Binary64) (sections : List ArrangedSection) :
    arrangedProgram bpm sections = tempoHeader bpm ++ "\n" ++ arrangedSequence sections := by
  have hprogram : arrangedProgram bpm sections = tempoHeader bpm ++ "\ncat(\n" ++
      indent 2 (",\n".intercalate (sections.map ArrangedSection.expression)) ++ "\n)" := rfl
  rw [hprogram, arrangedSequence, ← String.toList_inj]
  simp

namespace Template

/-- The phase that a section is on, if there is one. -/
def focusOf (t : Template) (focused : Bool) (sections index : Nat) : Result (Option Phase) :=
  if focused && !t.rules.phases.isEmpty then do
    return some (← t.rules.phaseAt (← focusPhaseIndex index sections t.rules.phases.length))
  else return none

variable {t : Template} {seed : String} {bpm : Binary64} {params : Params} {focused : Bool}
  {sections index : Nat}

theorem arrangedSection_eq (label : String) (bars : Int) :
    t.arrangedSection seed bpm params focused sections index label bars = (do
      let params ← modulate params (sectionEnergy index) t.schema
      let focus ← t.focusOf focused sections index
      let code ← t.program bpm (← Binary64.ofInt bars) params (sectionSeed seed index)
        (focus.map t.rules.focusedOn)
      return ⟨label, bars, Tempo.stripLeading code, sectionEnergy index, focus.map Phase.id⟩) := by
  unfold arrangedSection focusOf
  dsimp only
  cases focused && !t.rules.phases.isEmpty with
  | true => simp
  | false => simp

theorem arrangedSection_eq_ok {label : String} {bars : Int} {s : ArrangedSection} :
    t.arrangedSection seed bpm params focused sections index label bars = .ok s ↔
      ∃ own focus length code, modulate params (sectionEnergy index) t.schema = .ok own ∧
        t.focusOf focused sections index = .ok focus ∧ Binary64.ofInt bars = .ok length ∧
        t.program bpm length own (sectionSeed seed index) (focus.map t.rules.focusedOn) = .ok code ∧
        s = ⟨label, bars, Tempo.stripLeading code, sectionEnergy index, focus.map Phase.id⟩ := by
  simp only [arrangedSection_eq, bind_eq_ok, pure_eq_ok]
  constructor
  · rintro ⟨own, hown, focus, hfocus, length, hlength, code, hcode, rfl⟩
    exact ⟨own, focus, length, code, hown, hfocus, hlength, hcode, rfl⟩
  · rintro ⟨own, focus, length, code, hown, hfocus, hlength, hcode, rfl⟩
    exact ⟨own, hown, focus, hfocus, length, hlength, code, hcode, rfl⟩

theorem arrangedSections_eq_ok {plan : List (String × Int)} {arranged : List ArrangedSection} :
    t.arrangedSections seed bpm params focused sections index plan = .ok arranged ↔
      List.Forall₂ (fun entry s => t.arrangedSection seed bpm params focused sections entry.2
        entry.1.1 entry.1.2 = .ok s) (plan.zipIdx index) arranged := by
  induction plan generalizing index arranged with
  | nil =>
    rw [List.zipIdx_nil, List.forall₂_nil_left_iff, arrangedSections, Except.ok.injEq, eq_comm]
  | cons entry plan ih =>
    obtain ⟨label, bars⟩ := entry
    simp only [arrangedSections, bind_eq_ok, pure_eq_ok, ih, List.zipIdx_cons,
      List.forall₂_cons_left_iff]
    constructor
    · rintro ⟨s, hs, rest, hrest, rfl⟩
      exact ⟨s, rest, hs, hrest, rfl⟩
    · rintro ⟨s, rest, hs, hrest, rfl⟩
      exact ⟨s, hs, rest, hrest, rfl⟩

theorem arrange_eq_ok {style length : String} {given : Option Params} {a : Arrangement} :
    t.arrange seed bpm style length given focused = .ok a ↔
      ∃ b total plan arranged, blueprint style = .ok b ∧ lengthBars length = .ok total ∧
        allocateBars total b.weights leastSectionBars = .ok plan ∧
        t.arrangedSections seed bpm (given.getD t.defaults) focused plan.length 0
          ((b.sections.map (·.1)).zip plan) = .ok arranged ∧
        a = ⟨t.id, arrangedProgram bpm arranged, total, arranged,
          b.name ++ " " ++ toString total ++ "b"⟩ := by
  simp only [arrange, bind_eq_ok, pure_eq_ok]
  constructor
  · rintro ⟨b, hb, total, htotal, plan, hplan, arranged, harranged, rfl⟩
    exact ⟨b, total, plan, arranged, hb, htotal, hplan, harranged, rfl⟩
  · rintro ⟨b, total, plan, arranged, hb, htotal, hplan, harranged, rfl⟩
    exact ⟨b, hb, total, htotal, plan, hplan, arranged, harranged, rfl⟩

/-- The phase of a section that is on one phase, and its block. -/
def focusedBlock (t : Template) (seed : String) (params : Params) (sections index : Nat)
    (bars : Int) : Result (Phase × String) := do
  let own ← modulate params (sectionEnergy index) t.schema
  let phase ← t.rules.phaseAt (← focusPhaseIndex index sections t.rules.phases.length)
  let length ← Binary64.ofInt bars
  let adjustments ← t.adjust own (sectionSeed seed index)
  let n ← safeBars length
  let block ← segmentBlock (t.rules.focusedOn phase)
    (homePatterns (.ofSeed (sectionSeed seed index)) t.rules.layers)
    (adjustments.rotate.getD t.rules.rotate) adjustments 1 ⟨some phase.widened, 1, n, 0⟩
  return (phase, block)

theorem arrangedSection_focused (hphases : t.rules.phases ≠ []) {label : String}
    {bars : Int} {s : ArrangedSection} :
    t.arrangedSection seed bpm params true sections index label bars = .ok s ↔
      bpm.isFinite = true ∧ ¬ bpm ≤ 0 ∧ ∃ phase block,
        t.focusedBlock seed params sections index bars = .ok (phase, block) ∧
        s = ⟨label, bars, Tempo.stripLeading (tempoHeader bpm ++ "\n" ++ sequence [block]),
          sectionEnergy index, some phase.id⟩ := by
  have hfocus : (true && !t.rules.phases.isEmpty) = true := by simpa using hphases
  have hnan : ∀ phase : Phase, (startShare phase.widened).isNan = false := by
    intro phase
    change (0 : Binary64).isNan = false
    decide +kernel
  rw [arrangedSection_eq_ok]
  simp only [focusOf, hfocus, if_true, focusedBlock, bind_eq_ok, pure_eq_ok, Template.program]
  constructor
  · rintro ⟨own, _, length, code, hown, ⟨k, hk, phase, hphase, rfl⟩, hlength,
      ⟨adjustments, hadjust, hcode⟩, rfl⟩
    obtain ⟨hfinite, hpos, n, block, hn, hblock, rfl⟩ :=
      (program_of_single rfl rfl (hnan phase)).mp hcode
    exact ⟨hfinite, hpos, phase, block, ⟨own, hown, k, hk, phase, hphase, length, hlength,
      adjustments, hadjust, n, hn, block, hblock, rfl⟩, rfl⟩
  · rintro ⟨hfinite, hpos, _, _, ⟨own, hown, k, hk, phase, hphase, length, hlength,
      adjustments, hadjust, n, hn, block, hblock, he⟩, rfl⟩
    obtain ⟨rfl, rfl⟩ := Prod.mk.inj he
    have hprogram := (program_of_single rfl rfl (hnan phase)).mpr
      ⟨hfinite, hpos, n, block, hn, hblock, rfl⟩
    exact ⟨own, _, length, _, hown, ⟨k, hk, phase, hphase, rfl⟩, hlength,
      ⟨adjustments, hadjust, hprogram⟩, rfl⟩

end Template
end PatternLoom
