import Mathlib
import PatternLoom.Proofs.Program.DrawOrder

/-! Programs whose patterns rotate. The layers draw as in every program, but a layer with patterns
takes them in turn, phase by phase, and one without patterns rests whatever is drawn. So nothing
that is drawn reaches the text, and two seeds have one program. -/

namespace PatternLoom

/-- What a layer plays in the phase with an index when patterns rotate: the pattern whose turn it
is, and a rest if it has none. -/
inductive Layer.Turn (layer : Layer) (index : Nat) : String → Prop where
  | pattern {option : PatternOption}
    (at_index : layer.patterns[index % layer.patterns.length]? = some option) :
    Turn layer index option.value
  | none (no_patterns : layer.patterns = []) : Turn layer index rest

section Turns

variable {rules : RuleSet} {layer : Layer} {index : Nat}

theorem Layer.Turn.unique {p q : String} (hp : layer.Turn index p) (hq : layer.Turn index q) :
    p = q := by
  cases hp with
  | pattern hp =>
    cases hq with
    | pattern hq => rw [Option.some.inj (hp.symm.trans hq)]
    | none hq => simp [hq] at hp
  | none hp =>
    cases hq with
    | pattern hq => simp [hp] at hq
    | none _ => rfl

/-- A layer without patterns rests, wherever the stream is. -/
theorem RuleSet.get?_home_of_no_patterns (hlayer : layer ∈ rules.layers)
    (h : layer.patterns = []) (seed : String) :
    (homePatterns (.ofSeed seed) rules.layers).get? layer.id = some rest := by
  obtain ⟨before, after, hsplit⟩ := List.append_of_mem hlayer
  rw [rules.get?_home hsplit, h]
  rfl

theorem RuleSet.patternIn_turn (hlayer : layer ∈ rules.layers) (seed : String) (index : Nat) :
    layer.Turn index (patternIn true (homePatterns (.ofSeed seed) rules.layers) layer index) := by
  by_cases h : layer.patterns = []
  · have hrest : patternIn true (homePatterns (.ofSeed seed) rules.layers) layer index = rest := by
      simp [patternIn, h, rules.get?_home_of_no_patterns hlayer h]
    rw [hrest]
    exact .none h
  · have hlt : index % layer.patterns.length < layer.patterns.length :=
      Nat.mod_lt _ (List.length_pos_iff.mpr h)
    have hoption := List.getElem?_eq_getElem hlt
    have hpattern : patternIn true (homePatterns (.ofSeed seed) rules.layers) layer index =
        (layer.patterns.get ⟨index % layer.patterns.length, hlt⟩).value := by
      simp only [patternIn, hoption, List.get_eq_getElem]
    rw [hpattern]
    exact .pattern hoption

end Turns

/-- No seed is heard where patterns rotate. -/
structure RuleSet.Rotates (rules : RuleSet) (adjustments : Adjustments) : Prop where
  /-- Two seeds have the same program, or fail in the same way. -/
  seedless : ∀ bpm bars seed seed',
    rules.program bpm bars seed adjustments = rules.program bpm bars seed' adjustments
  /-- The layers of a segment play the patterns whose turn it is there, gaps not counted. -/
  in_turn : ∀ bpm bars seed code, rules.program bpm bars seed adjustments = .ok code →
    ∃ n segments texts, safeBars bars = .ok n ∧ rules.segments n = .ok segments ∧
      IsCover n segments ∧
      List.Forall₂ (fun segment members => List.Forall₂ (fun layer text =>
          ∃ pattern, layer.Turn segment.index pattern ∧ layer.expression pattern
            (resolveLevels layer segment.id segment.levels adjustments) adjustments = .ok text)
        (rules.members segment) members) segments texts ∧
      code = tempoHeader bpm ++ "\n" ++ sequence (blocksFrom 1 segments texts)

theorem RuleSet.rotates {rules : RuleSet} {adjustments : Adjustments}
    (h : adjustments.rotate.getD rules.rotate = true) : rules.Rotates adjustments where
  seedless bpm bars seed seed' := by
    refine @program_congr rules rules seed' seed adjustments (fun _ => rfl) rfl ?_ bpm bars
    intro n segments _
    rw [h]
    refine segmentBlocks_congr (fun _ _ => rfl) (fun segment _ layer hlayer => ?_) adjustments 1
    have hmem := layer_of_mem_members hlayer
    exact (patternIn_turn hmem seed _).unique (patternIn_turn hmem seed' _)
  in_turn bpm bars seed code hcode := by
    obtain ⟨_, _, n, segments, blocks, hn, hsegments, hblocks, rfl⟩ := program_eq_ok.mp hcode
    obtain ⟨texts, htexts, rfl⟩ := segmentBlocks_eq_blocksFrom.mp hblocks
    have hpos := one_le_safeBars hn
    have hcover := (RuleSet.segments_covers hsegments hpos).isCover hpos
    refine ⟨n, segments, texts, hn, hsegments, hcover, htexts.imp ?_, rfl⟩
    intro segment members hmembers
    -- Only the layers of the rules are known to be at home.
    have hown := (List.forall₂_and_left (rules.members segment) members).mpr
      ⟨fun layer => layer_of_mem_members, hmembers⟩
    refine hown.imp ?_
    rintro layer text ⟨hlayer, htext⟩
    rw [memberText, h] at htext
    exact ⟨_, patternIn_turn hlayer seed segment.index, htext⟩

/-- Two patterns, a layer without any, a layer that the rules do not have, and a bar between the
phases that no phase claims. -/
def alternating : RuleSet where
  layers := [
    { id := "lead", kind := .melodic, instrument := some "saw",
      patterns := [⟨"c4", 1, one_not_negative⟩, ⟨"g4", 3, by decide +kernel⟩] },
    { id := "drums", kind := .drums, patterns := [] }]
  phases := [
    { id := "intro", layers := ["lead", "bass", "drums"], bars := some (1, 2) },
    { id := "outro", layers := ["drums", "lead"], bars := some (4, 4) }]
  stretch := false
  ids_nodup := by decide

/-- The bars that the phases of `alternating` take in a piece of five. -/
def alternatingRanges : List Placement :=
  [⟨alternating.phases[0], 1, 2⟩, ⟨alternating.phases[1], 4, 4⟩]

theorem alternating_placements : alternating.placements 5 = .ok alternatingRanges := by
  have hplace : ∀ phase ∈ alternating.phases, ∀ range ∈ phase.bars,
      place 5 1 phase = .ok ⟨phase, range.1, range.2⟩ := by
    have hclaims : ∀ phase ∈ alternating.phases, ∀ range ∈ phase.bars,
        claimedBars phase 5 1 = .ok range ∧ clampBar range.1 5 = .ok range.1 ∧
          clampBar range.2 5 = .ok range.2 := by decide +kernel
    intro phase hphase range hrange
    obtain ⟨hclaimed, hfirst, hlast⟩ := hclaims phase hphase range hrange
    exact bind_eq_ok.mpr
      ⟨range, hclaimed, bind_eq_ok.mpr ⟨_, hfirst, bind_eq_ok.mpr ⟨_, hlast, rfl⟩⟩⟩
  refine bind_eq_ok.mpr ⟨1, rfl, mapM_eq_ok.mpr (.cons ?_ (.cons ?_ .nil))⟩
  · exact hplace _ (by simp [alternating]) (1, 2) rfl
  · exact hplace _ (by simp [alternating]) (4, 4) rfl

theorem alternating_program :
    ∃ code, alternating.program 120 5 "seed" { rotate := some true } = .ok code := by
  have hbars : safeBars 5 = .ok 5 := by decide +kernel
  have hsorted : Placement.inOrder alternatingRanges = alternatingRanges :=
    List.mergeSort_of_pairwise (by simp [alternatingRanges, Placement.precedes])
  have hsegments : alternating.segments 5 = .ok (cover 5 1 0 alternatingRanges) :=
    bind_eq_ok.mpr ⟨_, alternating_placements, by rw [hsorted]; rfl⟩
  obtain ⟨blocks, hblocks⟩ := eq_ok_of_isOk (x := segmentBlocks alternating
    (homePatterns (.ofSeed "seed") alternating.layers) true { rotate := some true } 1
    (cover 5 1 0 alternatingRanges)) (by decide +kernel)
  exact ⟨_, program_eq_ok.mpr
    ⟨by decide +kernel, by decide +kernel, 5, _, blocks, hbars, hsegments, hblocks, rfl⟩⟩

theorem alternating_rotates : (some true).getD alternating.rotate = true ∧
    alternating.Rotates { rotate := some true } ∧
    ∃ code, ∀ seed, alternating.program 120 5 seed { rotate := some true } = .ok code := by
  have hrotates := @RuleSet.rotates alternating { rotate := some true } rfl
  obtain ⟨code, hcode⟩ := alternating_program
  exact ⟨rfl, hrotates, code, fun seed => (hrotates.seedless 120 5 seed "seed").trans hcode⟩

end PatternLoom
