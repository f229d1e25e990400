import Mathlib
import PatternLoom.Proofs.Arrangement.Allocation
import PatternLoom.Proofs.Arrangement.Heading
import PatternLoom.Proofs.Arrangement.Reading

/-! Arrangements that walk through the phases. A section on one phase has one block, in which the
layers of the phase play from the first bar of the section to its last. -/

namespace PatternLoom

/-- A phase that plays: its layers, which the rules all have, and a name on one line. -/
structure RuleSet.Sounding (rules : RuleSet) (phase : Phase) : Prop where
  layers_ne_nil : phase.layers ≠ []
  known : ∀ id ∈ phase.layers, (rules.layer? id).isSome
  line : '\n' ∉ phase.id.toList

/-- The text of a section in which the members of a stack play for as many bars. -/
def stackedSection (id : String) (bars : Int) (members : List String) : String :=
  "cat(\n  // 1. PHASE " ++ id ++ " 1-" ++ toString bars ++ "\n  stack(\n" ++
    ",\n".intercalate (members.map ("    " ++ ·)) ++ "\n  ).slow(" ++ toString bars ++ ")\n)"

/-- A section on the phase that its place among five leads to: a sequence of one block, which
stacks one member for each layer of the phase over the bars of the section. -/
structure OnPhase (t : Template) (index : Nat) (s : ArrangedSection) (phase : Phase)
    (members : List String) : Prop where
  at_index : ∃ k, focusPhaseIndex index 5 t.rules.phases.length = .ok k ∧
    t.rules.phaseAt k = .ok phase
  focus_eq : s.focus = some phase.id
  members_ne_nil : members ≠ []
  layers : List.Forall₂ (fun id text => ∃ layer pattern levels adjustments,
      t.rules.layer? id = some layer ∧ layer.expression pattern levels adjustments = .ok text)
    phase.layers members
  code_eq : s.code = stackedSection phase.id s.bars members
  reads : ∃ ls argument pattern, lexemes s.code.toList = some ls ∧
    readCall "cat" ls = some ([argument], []) ∧
    TellsSegment (t.rules.focusedOn phase) pattern (⟨some phase.widened, 1, s.bars, 0⟩, 1) argument

section Sections

variable {t : Template} {seed : String} {bpm : Binary64} {params : Params} {index : Nat}

theorem members_focusedOn {rules : RuleSet} {phase : Phase} (h : rules.Sounding phase)
    (bars : Int) : List.Forall₂ (fun id layer => rules.layer? id = some layer) phase.layers
      ((rules.focusedOn phase).members ⟨some phase.widened, 1, bars, 0⟩) :=
  forall₂_filterMap h.known

theorem toList_stackedSection {phase : Phase} {bars : Int} (hbars : 1 ≤ bars)
    {members : List String} (hne : members ≠ []) :
    sequence [segmentComment 1 ⟨some phase.widened, 1, bars, 0⟩ ++ "\n  " ++
      segmentExpression members (Segment.span ⟨some phase.widened, 1, bars, 0⟩)] =
      stackedSection phase.id bars members := by
  have hspan : Segment.span ⟨some phase.widened, 1, bars, 0⟩ = bars := by
    unfold Segment.span
    dsimp only
    omega
  have hcomment : segmentComment 1 ⟨some phase.widened, 1, bars, 0⟩ =
      "// 1. PHASE " ++ phase.id ++ " 1-" ++ toString bars := by
    have hnat : Nat.toDigits 10 1 = ['1'] := by decide
    have hint : (Int.repr 1).toList = ['1'] := by decide
    rw [← String.toList_inj]
    simp [segmentComment, Segment.isGap, Segment.id, Phase.widened, hnat, hint]
  have hstack : segmentExpression members bars = "stack(\n" ++
      ",\n".intercalate (members.map ("    " ++ ·)) ++ "\n  ).slow(" ++ toString bars ++ ")" := by
    rw [← String.toList_inj]
    simp [segmentExpression, hne]
  rewrite [hspan, hcomment, hstack]
  unfold stackedSection
  rewrite [← String.toList_inj]
  simp [sequence]

theorem bars_of_safeBars {bars n : Int} {length : Binary64} (hpos : 1 ≤ bars) (hlt : bars < 2 ^ 52)
    (hlength : Binary64.ofInt bars = .ok length) (h : safeBars length = .ok n) : n = bars := by
  obtain ⟨m, rfl⟩ := Int.eq_ofNat_of_zero_le (by omega : 0 ≤ bars)
  obtain ⟨y, hy, hsafe⟩ := safeBars_of_settled hpos (Binary64.settled_of_lt (by exact_mod_cast hlt))
  obtain rfl := Except.ok.inj (hy.symm.trans hlength)
  exact Except.ok.inj (h.symm.trans hsafe)

theorem Template.focusedBlock_eq_ok {bars : Int} (hpos : 1 ≤ bars) (hlt : bars < 2 ^ 52)
    {phase : Phase} {block : String}
    (h : t.focusedBlock seed params 5 index bars = .ok (phase, block)) :
    (∃ k, focusPhaseIndex index 5 t.rules.phases.length = .ok k ∧ t.rules.phaseAt k = .ok phase) ∧
      ∃ s rotate adjustments, segmentBlock (t.rules.focusedOn phase) (homePatterns s t.rules.layers)
        rotate adjustments 1 ⟨some phase.widened, 1, bars, 0⟩ = .ok block := by
  simp only [focusedBlock, bind_eq_ok, pure_eq_ok] at h
  obtain ⟨_, _, k, hk, phase', hphase, length, hlength, adjustments, _, n, hn, block', hblock,
    he⟩ := h
  obtain ⟨rfl, rfl⟩ := Prod.mk.inj he
  obtain rfl := bars_of_safeBars hpos hlt hlength hn
  exact ⟨⟨k, hk, hphase⟩, _, _, adjustments, hblock⟩

theorem Template.arrangedSection_onPhase (ht : t.rules.Untimed) (hne : t.rules.phases ≠ [])
    (hsounding : ∀ phase ∈ t.rules.phases, t.rules.Sounding phase) {label : String} {bars : Int}
    (hpos : 1 ≤ bars) (hlt : bars < 2 ^ 52) {s : ArrangedSection}
    (h : t.arrangedSection seed bpm params true 5 index label bars = .ok s) :
    s.bars = bars ∧ (∃ phase members, OnPhase t index s phase members) ∧
      ∃ ls, IsArgument s.code.toList ls := by
  obtain ⟨hfinite, htempo, phase, block, hfocused, rfl⟩ := (arrangedSection_focused hne).mp h
  obtain ⟨⟨k, hk, hphase⟩, _, _, _, hblock⟩ := focusedBlock_eq_ok hpos hlt hfocused
  have hmem := mem_of_phaseAt hphase
  have hplays := hsounding phase hmem
  obtain ⟨argument, hargument, htells⟩ := segmentBlock_tells
    (fun p hp => by
      obtain rfl := Option.some.inj hp
      exact hplays.line) hblock
  have hbody : IsBody (sequence [block]) := by
    refine isBody_sequence (List.forall_mem_singleton.mpr ?_)
    exact sealed_segmentBlock (ht.focusedOn hmem) (fun p hp => by
      obtain rfl := Option.some.inj hp
      exact ht.ids phase hmem) hblock
  have hcode := (hbody.headed hfinite htempo).strippedLeading
  obtain ⟨members, hmembers, rfl⟩ := segmentBlock_eq_ok.mp hblock
  have hlayers : List.Forall₂ (fun id text => ∃ layer pattern levels adjustments,
      t.rules.layer? id = some layer ∧ layer.expression pattern levels adjustments = .ok text)
      phase.layers members :=
    (forall₂_comp (members_focusedOn hplays _) hmembers).imp
      fun _ _ ⟨layer, hlayer, htext⟩ => ⟨layer, _, _, _, hlayer, htext⟩
  have hmembers_ne : members ≠ [] := by
    rintro rfl
    exact hplays.layers_ne_nil (List.forall₂_nil_right_iff.mp hlayers)
  have hpart := sequence_lexes (.cons hargument .nil)
  have hread := @readCall_one "cat" argument hargument.whole hargument.ne_nil
  rw [List.intercalate_singleton] at hpart
  rw [hcode]
  refine ⟨rfl, ⟨phase, members, ⟨k, hk, hphase⟩, rfl, hmembers_ne, hlayers, ?_, ?_⟩, ?_⟩
  · exact toList_stackedSection hpos hmembers_ne
  · exact ⟨_, argument, _, hpart.lexes.read, hread, htells⟩
  · exact ⟨_, hpart.lexes, hpart.whole, called_ne_nil _ _⟩

theorem Template.arrangedSections_onPhase (ht : t.rules.Untimed) (hne : t.rules.phases ≠ [])
    (hsounding : ∀ phase ∈ t.rules.phases, t.rules.Sounding phase) {labels : List String}
    {plan : List Int} (hlabels : labels.length = plan.length)
    (hplan : ∀ bars ∈ plan, 1 ≤ bars ∧ bars < 2 ^ 52) {arranged : List ArrangedSection}
    (h : t.arrangedSections seed bpm params true 5 0 (labels.zip plan) = .ok arranged) :
    arranged.map ArrangedSection.bars = plan ∧
      (∀ i s, arranged[i]? = some s → ∃ phase members, OnPhase t i s phase members) ∧
      ∀ s ∈ arranged, ∃ ls, IsArgument s.code.toList ls := by
  have hentries : ∀ entry ∈ (labels.zip plan).zipIdx, 1 ≤ entry.1.2 ∧ entry.1.2 < 2 ^ 52 := by
    rintro ⟨⟨label, bars⟩, i⟩ hentry
    exact hplan bars (List.of_mem_zip (List.fst_mem_of_mem_zipIdx hentry)).2
  have hplanned : ((labels.zip plan).zipIdx).map (·.1.2) = plan := by
    have hzip := List.map_snd_zip hlabels.ge
    rw [← List.zipIdx_map_fst 0 (labels.zip plan), List.map_map] at hzip
    exact hzip
  have hsections := ((List.forall₂_and_left _ _).mpr
    ⟨hentries, arrangedSections_eq_ok.mp h⟩).imp fun entry s ⟨⟨hpos, hlt⟩, hentry⟩ =>
      arrangedSection_onPhase ht hne hsounding hpos hlt hentry
  refine ⟨?_, ?_, ?_⟩
  · rw [map_eq_of_forall₂ hsections fun _ _ hs => hs.1, hplanned]
  · intro i s hs
    obtain ⟨hi, rfl⟩ := List.getElem?_eq_some_iff.mp hs
    have hentry := (hsections.get (hsections.length_eq ▸ hi) hi).2.1
    rwa [List.get_eq_getElem, List.getElem_zipIdx, Nat.zero_add] at hentry
  · intro s hs
    obtain ⟨entry, _, _, _, hargument⟩ := exists_of_forall₂_right hsections hs
    exact hargument

end Sections

section Arrangements

/-- What a listener of an arrangement through the phases can rely on. -/
structure WalksPhases (t : Template) (bpm : Binary64) (total : Nat) (a : Arrangement) : Prop where
  bars_eq : a.bars = total
  length_eq : a.sections.length = 5
  sum_eq : (a.sections.map ArrangedSection.bars).sum = total
  least : ∀ s ∈ a.sections, 4 ≤ s.bars
  on_phase : ∀ i s, a.sections[i]? = some s → ∃ phase members, OnPhase t i s phase members
  code_eq : a.code = tempoHeader bpm ++ "\ncat(\n" ++ indent 2 (",\n".intercalate
    (a.sections.map fun s => "(" ++ s.code ++ ")")) ++ "\n)"
  reads : ∃ lss ls, List.Forall₂ (fun s own => lexemes s.code.toList = some own) a.sections lss ∧
    lexemes a.code.toList = some (headerLexemes bpm ++ ls) ∧ Balanced (headerLexemes bpm ++ ls) ∧
    readCall "cat" ls = some (lss.map fun own => .opening :: (own ++ [.closing]), [])
  one_tempo : ∃ body, Headed bpm a.code body

theorem sounding_of_mem_catalog {t : Template} (h : t ∈ catalog) : t.rules.phases ≠ [] ∧
    ∀ phase ∈ t.rules.phases, t.rules.Sounding phase := by
  have hphases : ∀ t ∈ catalog, t.rules.phases ≠ [] := by decide +kernel
  have hlayers : ∀ t ∈ catalog, ∀ phase ∈ t.rules.phases, phase.layers ≠ [] ∧
      (∀ id ∈ phase.layers, (t.rules.layer? id).isSome) ∧
      phase.id.toList.contains '\n' = false := by
    decide +kernel
  refine ⟨hphases t h, fun phase hphase => ?_⟩
  obtain ⟨hne, hknown, hline⟩ := hlayers t h phase hphase
  exact ⟨hne, hknown, by simpa using hline⟩

theorem mem_of_blueprint {style : String} {b : Blueprint} (h : blueprint style = .ok b) :
    b ∈ blueprints := by
  unfold blueprint at h
  split at h
  · rename_i found hfound
    obtain rfl := Except.ok.inj h
    exact List.mem_of_find?_eq_some hfound
  · cases h

theorem mem_of_lengthBars {length : String} {total : Nat} (h : lengthBars length = .ok total) :
    (length, total) ∈ lengths := by
  unfold lengthBars at h
  split at h
  · rename_i found hfound
    obtain rfl := Except.ok.inj h
    obtain ⟨before, after, hparts, _⟩ := List.lookup_eq_some_iff.mp hfound
    simp [hparts]
  · cases h

theorem blueprint_sections {style : String} {b : Blueprint} (h : blueprint style = .ok b) :
    b.sections.length = 5 := by
  have hall : ∀ b ∈ blueprints, b.sections.length = 5 := by decide
  exact hall b (mem_of_blueprint h)

theorem lengthBars_le {length : String} {total : Nat} (h : lengthBars length = .ok total) :
    total ≤ 128 := by
  have hall : ∀ entry ∈ lengths, entry.2 ≤ 128 := by decide
  exact hall _ (mem_of_lengthBars h)

theorem plan_of_blueprint {style length : String} {b : Blueprint} {total : Nat} {plan : List Int}
    (hb : blueprint style = .ok b) (htotal : lengthBars length = .ok total)
    (h : allocateBars total b.weights leastSectionBars = .ok plan) :
    plan.length = 5 ∧ Fills total leastSectionBars plan ∧ ∀ bars ∈ plan, bars ≤ 128 := by
  obtain ⟨hlength, hfills⟩ := allocateBars_fills h
  rw [Blueprint.weights, List.length_map, blueprint_sections hb] at hlength
  refine ⟨hlength, hfills, fun bars hbars => ?_⟩
  have hnonneg : ∀ other ∈ plan, 0 ≤ other := by
    intro other hother
    have hleast := hfills.le other hother
    unfold leastSectionBars at hleast
    omega
  have hsingle := List.single_le_sum hnonneg bars hbars
  have htotal_le := lengthBars_le htotal
  rw [hfills.sum_eq] at hsingle
  omega

/-- A focused arrangement gives its bars out to five sections. Each of them is a stack of the layers
of the phase that its place leads to, and they come in order behind one statement of the tempo. -/
theorem Template.arrange_walksPhases {t : Template} (ht : t ∈ catalog) {bpm : Binary64}
    (hfinite : bpm.isFinite) (hpos : 0 < bpm) {seed style length : String} {params : Option Params}
    {a : Arrangement} (h : t.arrange seed bpm style length params true = .ok a) :
    ∃ total, lengthBars length = .ok total ∧ WalksPhases t bpm total a := by
  have huntimed := untimed_of_mem_catalog ht
  obtain ⟨hphases, hsounding⟩ := sounding_of_mem_catalog ht
  have hpositive := (Binary64.pos_iff hfinite).mp hpos
  have hheaded := arrange_headed huntimed hfinite hpositive h
  obtain ⟨b, total, plan, arranged, hb, htotal, hplan, harranged, rfl⟩ := arrange_eq_ok.mp h
  obtain ⟨hfive, hfills, hmost⟩ := plan_of_blueprint hb htotal hplan
  have hlabels : (b.sections.map (·.1)).length = plan.length := by
    rw [List.length_map, blueprint_sections hb, hfive]
  rw [hfive] at harranged
  obtain ⟨hbars, honPhase, harguments⟩ := arrangedSections_onPhase huntimed hphases hsounding
    hlabels (fun bars hmem => by
      have hleast := hfills.le bars hmem
      have hbound := hmost bars hmem
      unfold leastSectionBars at hleast
      omega) harranged
  have hcount : arranged.length = 5 := by
    rw [← hfive, ← hbars, List.length_map]
  obtain ⟨lss, hlss⟩ : ∃ lss, List.Forall₂ (fun s ls => IsArgument s.code.toList ls) arranged lss :=
    exists_forall₂_of_forall harguments
  obtain ⟨ls, htext, hbalanced, hread⟩ :=
    arrangedProgram_reads hfinite hpositive (List.ne_nil_of_length_pos (by omega)) hlss
  have hexpressions : arranged.map ArrangedSection.expression =
      arranged.map fun s => "(" ++ s.code ++ ")" := by
    refine List.map_congr_left fun s hs => ?_
    obtain ⟨own, hargument⟩ := harguments s hs
    exact ArrangedSection.expression_eq hargument
  refine ⟨total, htotal, rfl, hcount, hbars ▸ hfills.sum_eq, ?_, honPhase, ?_, ?_, _, hheaded⟩
  · intro s hs
    exact hfills.le s.bars (hbars ▸ List.mem_map_of_mem hs)
  · rw [← hexpressions]
    rfl
  · exact ⟨lss, ls, hlss.imp fun _ _ harg => harg.lexes.read, htext, hbalanced, hread⟩

theorem minimalGroove_walksPhases : Catalog.MinimalGroove.template ∈ catalog ∧
    (120 : Binary64).isFinite = true ∧ (0 : Binary64) < 120 ∧ ∃ a total,
      Catalog.MinimalGroove.template.arrange "abc123" 120 "club" "short" none true = .ok a ∧
      lengthBars "short" = .ok total ∧ WalksPhases Catalog.MinimalGroove.template 120 total a := by
  have hgroove : Catalog.MinimalGroove.template ∈ catalog := by simp [catalog]
  have hfinite : (120 : Binary64).isFinite = true := by decide +kernel
  have hpos : (0 : Binary64) < 120 := by decide +kernel
  obtain ⟨a, ha⟩ := minimalGroove_arranges
  obtain ⟨total, htotal, hwalks⟩ := Template.arrange_walksPhases hgroove hfinite hpos ha
  exact ⟨hgroove, hfinite, hpos, a, total, ha, htotal, hwalks⟩

end Arrangements

end PatternLoom
