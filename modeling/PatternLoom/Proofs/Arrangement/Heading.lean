import Mathlib
import PatternLoom.Catalog
import PatternLoom.Proofs.Arrangement.Shape
import PatternLoom.Proofs.Piece.Rebuilding
import PatternLoom.Proofs.Program.Heading

/-! Arrangements set one tempo. The tempo of each section is taken away where it is put into the
sequence, and the names and patterns of the catalog have no tempo words. -/

namespace PatternLoom

open Tempo

section Sections

variable {t : Template} {bpm : Binary64}

theorem mem_of_phaseAt {rules : RuleSet} {index : Int} {phase : Phase}
    (h : rules.phaseAt index = .ok phase) : phase ∈ rules.phases := by
  unfold RuleSet.phaseAt at h
  split at h
  · rename_i found hfound
    obtain rfl := Except.ok.inj h
    exact mem_of_nth hfound
  · cases h

theorem Template.mem_of_focusOf {focused : Bool} {sections index : Nat} {phase : Phase}
    (h : t.focusOf focused sections index = .ok (some phase)) : phase ∈ t.rules.phases := by
  unfold focusOf at h
  split at h
  · simp only [bind_eq_ok, pure_eq_ok] at h
    obtain ⟨k, _, found, hfound, he⟩ := h
    obtain rfl := Option.some.inj he
    exact mem_of_phaseAt hfound
  · cases h

theorem RuleSet.Untimed.focusedOn {rules : RuleSet} (h : rules.Untimed) {phase : Phase}
    (hphase : phase ∈ rules.phases) : (rules.focusedOn phase).Untimed where
  ids := by
    intro p hp
    obtain rfl := List.mem_singleton.mp hp
    exact h.ids phase hphase
  patterns := h.patterns
  instruments := h.instruments

theorem Template.program_headed (rules : Option RuleSet) (hrules : (rules.getD t.rules).Untimed)
    {bars : Binary64} {params : Params} {seed code : String}
    (h : t.program bpm bars params seed rules = .ok code) :
    ∃ body, IsBody body ∧ Headed bpm code body := by
  obtain ⟨adjustments, _, hcode⟩ := bind_eq_ok.mp h
  exact hrules.headed hcode

theorem Template.arrangedSection_isBody (ht : t.rules.Untimed) {seed label : String}
    {params : Params} {focused : Bool} {sections index : Nat} {bars : Int} {s : ArrangedSection}
    (h : t.arrangedSection seed bpm params focused sections index label bars = .ok s) :
    IsBody s.code := by
  obtain ⟨own, focus, length, code, _, hfocus, _, hcode, rfl⟩ := arrangedSection_eq_ok.mp h
  have hrules : ((focus.map t.rules.focusedOn).getD t.rules).Untimed := by
    cases focus with
    | none => exact ht
    | some phase => exact ht.focusedOn (mem_of_focusOf hfocus)
  obtain ⟨body, hbody, hheaded⟩ := program_headed _ hrules hcode
  rwa [hheaded.strippedLeading]

theorem escapes_indented {margin : List Char} (h : ∀ c ∈ margin, Foreign c) :
    Escapes (indented margin) := by
  intro c
  by_cases hfeed : c = '\n'
  · exact .inr ⟨'\n', margin, if_pos hfeed, by decide, fun e he => h e he 's' (by decide)⟩
  · exact .inl (if_neg hfeed)

theorem untimed_expression_of_isBody {s : ArrangedSection} (h : IsBody s.code) :
    Tempo.Untimed s.expression.toList := by
  unfold ArrangedSection.expression
  split
  · decide
  · have hopen : Tempo.Untimed ('(' :: s.code.toList) := h.untimed.cons (by decide)
    have hclose : Sealed [')'] := by decide
    simpa using hopen.append hclose

theorem isBody_arrangedSequence {sections : List ArrangedSection}
    (h : ∀ s ∈ sections, IsBody s.code) : IsBody (arrangedSequence sections) := by
  have hexpressions : ∀ text ∈ (sections.map ArrangedSection.expression).map String.toList,
      Tempo.Untimed text := by
    simp only [List.mem_map, forall_exists_index, and_imp]
    rintro text _ s hs rfl rfl
    exact untimed_expression_of_isBody (h s hs)
  have hmargin : ∀ c ∈ List.replicate 2 ' ', Foreign c := by
    intro c hc
    rw [List.eq_of_mem_replicate hc]
    decide
  have hlines := (untimed_intercalate ",\n".toList (by decide) (by simp; decide)
    hexpressions).flatMap (escapes_indented hmargin)
  have hindented : Sealed (indent 2 (",\n".intercalate
      (sections.map ArrangedSection.expression))).toList := by
    rw [toList_indent, String.toList_intercalate]
    exact .foreign_append (by decide) hmargin hlines
  have hclose : Sealed "\n)".toList := by decide
  have htext : (arrangedSequence sections).toList = "cat(".toList ++ ("\n".toList ++
      ((indent 2 (",\n".intercalate (sections.map ArrangedSection.expression))).toList ++
        "\n)".toList)) := by
    simp [arrangedSequence]
  have hopen : Tempo.Untimed "cat(".toList := by decide
  refine ⟨⟨_, htext.symm⟩, ?_, ?_⟩
  · rw [htext, ← List.append_assoc, ← List.append_assoc, List.getLast?_append]
    rfl
  · rw [htext]
    exact hopen.append (.foreign_append (by decide) (by simp; decide)
      (hindented.append hclose).untimed)

theorem Template.arrange_headed (ht : t.rules.Untimed) (hfinite : bpm.isFinite) (hpos : ¬ bpm ≤ 0)
    {seed style length : String} {params : Option Params} {focused : Bool} {a : Arrangement}
    (h : t.arrange seed bpm style length params focused = .ok a) :
    Headed bpm a.code (arrangedSequence a.sections) := by
  obtain ⟨b, total, plan, arranged, _, _, _, harranged, rfl⟩ := arrange_eq_ok.mp h
  have hbodies : ∀ s ∈ arranged, IsBody s.code := by
    intro s hs
    obtain ⟨entry, _, hentry⟩ := exists_of_forall₂_right (arrangedSections_eq_ok.mp harranged) hs
    exact arrangedSection_isBody ht hentry
  have hheaded := (isBody_arrangedSequence hbodies).headed hfinite hpos
  rwa [← arrangedProgram_eq] at hheaded

end Sections

section Catalog

theorem untimed_of_mem_catalog {t : Template} (h : t ∈ catalog) : t.rules.Untimed := by
  have hids : ∀ t ∈ catalog, ∀ phase ∈ t.rules.phases, Tempo.Untimed phase.id.toList := by
    decide +kernel
  have hpatterns : ∀ t ∈ catalog, ∀ layer ∈ t.rules.layers, ∀ value ∈ layer.values,
      Tempo.Untimed value.toList := by
    decide +kernel
  have hinstruments : ∀ t ∈ catalog, ∀ layer ∈ t.rules.layers,
      ∀ instrument ∈ layer.instrument.toList, Tempo.Untimed instrument.toList := by
    decide +kernel
  exact ⟨hids t h, hpatterns t h, fun layer hlayer instrument hi =>
    hinstruments t h layer hlayer instrument (Option.mem_toList.mpr hi)⟩

-- A pattern is not untimed by itself.
example : ¬ Tempo.Untimed "bd SetCps(1)".toList := by decide +kernel

/-- The programs of the catalog, and its arrangements, state their tempo once, in front. -/
theorem Template.programs_headed {t : Template} (ht : t ∈ catalog) {bpm : Binary64}
    (hfinite : bpm.isFinite) (hpos : 0 < bpm) :
    (∀ bars params seed code, t.program bpm bars params seed none = .ok code →
      ∃ body, Headed bpm code body) ∧
    ∀ seed style length params focused a,
      t.arrange seed bpm style length params focused = .ok a → ∃ body, Headed bpm a.code body := by
  have huntimed := untimed_of_mem_catalog ht
  constructor
  · intro bars params seed code hcode
    obtain ⟨body, _, hheaded⟩ := program_headed none huntimed hcode
    exact ⟨body, hheaded⟩
  · intro seed style length params focused a ha
    exact ⟨_, arrange_headed huntimed hfinite ((Binary64.pos_iff hfinite).mp hpos) ha⟩

theorem minimalGroove_arranges : ∃ a,
    Catalog.MinimalGroove.template.arrange "abc123" 120 "club" "short" none true = .ok a := by
  have hok : (show Result _ from do
      let b ← blueprint "club"
      let total ← lengthBars "short"
      let plan ← allocateBars total b.weights leastSectionBars
      ((b.sections.map (·.1)).zip plan).zipIdx.mapM fun entry =>
        Catalog.MinimalGroove.template.focusedBlock "abc123"
          Catalog.MinimalGroove.template.defaults plan.length entry.2 entry.1.2).isOk := by
    decide +kernel
  obtain ⟨blocks, hblocks⟩ := eq_ok_of_isOk hok
  simp only [bind_eq_ok, mapM_eq_ok] at hblocks
  obtain ⟨b, hb, total, htotal, plan, hplan, hblocks⟩ := hblocks
  have hfinite : (120 : Binary64).isFinite = true := by decide +kernel
  have hpos : ¬ (120 : Binary64) ≤ 0 := by decide +kernel
  obtain ⟨arranged, harranged, _⟩ := exists_forall₂ hblocks (T := fun _ _ => True)
    (S := fun entry s => Catalog.MinimalGroove.template.arrangedSection "abc123" 120
      Catalog.MinimalGroove.template.defaults true plan.length entry.2 entry.1.1 entry.1.2 = .ok s)
    (by
      rintro entry _ ⟨phase, block⟩ hblock
      exact ⟨_, (Template.arrangedSection_focused (List.cons_ne_nil _ _)).mpr
        ⟨hfinite, hpos, phase, block, hblock, rfl⟩, trivial⟩)
  exact ⟨_, Template.arrange_eq_ok.mpr ⟨b, total, plan, arranged, hb, htotal, hplan,
    Template.arrangedSections_eq_ok.mpr harranged, rfl⟩⟩

theorem polyrhythmGrid_headed : (120 : Binary64).isFinite = true ∧ (0 : Binary64) < 120 ∧
    (Catalog.PolyrhythmGrid.template ∈ catalog ∧ ∃ bars params code,
      Catalog.PolyrhythmGrid.template.program 120 bars params "abc123" none = .ok code ∧
      ∃ body, Headed 120 code body) ∧
    (Catalog.MinimalGroove.template ∈ catalog ∧ ∃ a,
      Catalog.MinimalGroove.template.arrange "abc123" 120 "club" "short" none true = .ok a ∧
      ∃ body, Headed 120 a.code body) := by
  have hfinite : (120 : Binary64).isFinite = true := by decide +kernel
  have hpos : (0 : Binary64) < 120 := by decide +kernel
  have hgrid : Catalog.PolyrhythmGrid.template ∈ catalog := by simp [catalog]
  have hgroove : Catalog.MinimalGroove.template ∈ catalog := by simp [catalog]
  obtain ⟨p, hp⟩ := polyrhythmGrid_piece
  simp only [Template.piece_eq, bind_eq_ok] at hp
  obtain ⟨_, _, _, _, params, _, bars, _, code, hcode, _⟩ := hp
  obtain ⟨a, ha⟩ := minimalGroove_arranges
  exact ⟨hfinite, hpos,
    ⟨hgrid, bars, params, code, hcode,
      (Template.programs_headed hgrid hfinite hpos).1 bars params "abc123" code hcode⟩,
    hgroove, a, ha,
    (Template.programs_headed hgroove hfinite hpos).2 "abc123" "club" "short" none true a ha⟩

end Catalog

end PatternLoom
