import Mathlib
import PatternLoom.Arrangement
import PatternLoom.Proofs.Catalog.Levels
import PatternLoom.Proofs.Piece.Validity
import PatternLoom.Proofs.Program.DrawOrder
import PatternLoom.Proofs.Program.Gains

/-! Layers that are heard. -/

namespace PatternLoom

open Binary64 (Between)

/-- What the adjustments set for a layer in a phase alone. -/
def Adjustments.levelsIn (a : Adjustments) (phase layer : String) : Option Levels :=
  ((a.phaseLevels.get? phase).getD []).get? layer

/-- Silence that is set for a layer in a phase. -/
def Adjustments.Mutes (a : Adjustments) (phase layer : String) : Prop :=
  a.levelsIn phase layer = some Catalog.muted

/-- A faint gain that rounds to less than half a step of the grid. -/
def Catalog.Quiet (params : Params) (id phase layer : String) : Prop :=
  ∃ x, (Catalog.Faint params id none layer x ∨ Catalog.Faint params id (some phase) layer x) ∧
    x.value ≤ 49 / 2000

section Tables

variable {a : Adjustments} {phase layer : String}

theorem Table.get?_nil {α : Type} (key : String) : Table.get? ([] : Table α) key = none := rfl

theorem Table.get?_cons {α : Type} (k key : String) (value : α) (rest : Table α) :
    Table.get? ((k, value) :: rest) key = if k = key then some value else rest.get? key := rfl

theorem Adjustments.mem_of_levelsIn {l : Levels} (h : a.levelsIn phase layer = some l) :
    ∃ p ∈ a.phaseLevels, p.1 = phase ∧ (layer, l) ∈ p.2 := by
  unfold levelsIn at h
  cases hp : a.phaseLevels.get? phase with
  | none =>
    rw [hp] at h
    cases h
  | some t =>
    rw [hp] at h
    exact ⟨(phase, t), Table.mem_of_get? hp, rfl, Table.mem_of_get? h⟩

theorem Adjustments.levelsIn_of_muted
    (h : ∀ p ∈ a.phaseLevels, ∀ e ∈ p.2, e.1 = layer → e.2 = Catalog.muted) :
    a.levelsIn phase layer = none ∨ a.Mutes phase layer := by
  cases hl : a.levelsIn phase layer with
  | none => exact .inl rfl
  | some l =>
    obtain ⟨p, hp, _, he⟩ := mem_of_levelsIn hl
    have hmuted := h p hp _ he rfl
    exact .inr (hl.trans (congrArg some hmuted))

end Tables

namespace Catalog

section Faint

variable {params : Params} (seed : String) {id phase layer : String} {a : Adjustments} {x : Binary64}

theorem Ambient.levelsIn_faint (h : Ambient.adjust params seed = .ok a)
    (hs : Faint params "ambient" (some phase) layer x) : a.levelsIn phase layer = some (gain x) := by
  simp only [Ambient.adjust, bind_eq_ok, pure_eq_ok] at h
  obtain ⟨air, hair, motion, hmotion, rfl⟩ := h
  generalize "ambient" = id at hs
  cases hs with
  | bass motion_eq =>
    obtain rfl := Except.ok.inj (hmotion.symm.trans motion_eq)
    rfl

theorem Ambient.levels_faint (h : Ambient.adjust params seed = .ok a)
    (hs : Faint params "ambient" none layer x) (phase : String) :
    (a.levelsIn phase layer = none ∨ a.Mutes phase layer) ∧
      a.levels.get? layer = some (gain x) := by
  simp only [Ambient.adjust, bind_eq_ok, pure_eq_ok] at h
  obtain ⟨air, hair, motion, hmotion, rfl⟩ := h
  generalize hid : "ambient" = id at hs
  cases hs with
  | sparkle air_eq motion_eq =>
    obtain rfl := Except.ok.inj (hair.symm.trans air_eq)
    obtain rfl := Except.ok.inj (hmotion.symm.trans motion_eq)
    refine ⟨Adjustments.levelsIn_of_muted ?_, by simp [Table.get?_cons]⟩
    simp
  | texture => exact absurd hid (by decide)
  | textureAlt => exact absurd hid (by decide)

theorem Faint.texture_cases (hs : Faint params "rap-80s" none layer x) :
    ∃ grit, clamped params "grit" 0 1 0.6 = .ok grit ∧
      (layer = "texture" ∧ x = 0.02 + grit * 0.07 ∨
        layer = "texture-alt" ∧ x = 0.02 + grit * 0.06) := by
  generalize hid : "rap-80s" = id at hs
  cases hs with
  | sparkle => exact absurd hid (by decide)
  | texture grit_eq => exact ⟨_, grit_eq, .inl ⟨rfl, rfl⟩⟩
  | textureAlt grit_eq => exact ⟨_, grit_eq, .inr ⟨rfl, rfl⟩⟩

theorem Rap80s.levels_faint (h : Rap80s.adjust params seed = .ok a)
    (hs : Faint params "rap-80s" none layer x) (phase : String) :
    (a.levelsIn phase layer = none ∨ a.Mutes phase layer) ∧
      a.levels.get? layer = some (gain x) := by
  simp only [Rap80s.adjust, bind_eq_ok, pure_eq_ok] at h
  obtain ⟨grit, hgrit, swing, hswing, ⟨ghost, s⟩, _, ⟨clap, s'⟩, _, ⟨hat, t⟩, _, ⟨texture, t'⟩, _,
    rfl⟩ := h
  obtain ⟨grit', hgrit', hlayer⟩ := hs.texture_cases
  obtain rfl := Except.ok.inj (hgrit.symm.trans hgrit')
  have hbass : layer ≠ "bass" := by rcases hlayer with ⟨rfl, -⟩ | ⟨rfl, -⟩ <;> decide
  refine ⟨Adjustments.levelsIn_of_muted fun p hp e he hl => ?_, ?_⟩
  · -- Apart from the bass, phases set silence alone.
    have hmuted : ∀ options keep, ∀ e ∈ muteUnselected options keep, ¬ e.1 = "bass" → e.2 = muted :=
      fun _ _ _ he _ => eq_muted_of_mem he
    have hunless : ∀ (kept : Prop) [Decidable kept],
        ∀ e ∈ (if kept then [] else [("adlib-hat", muted)] : Table Levels), ¬ e.1 = "bass" →
          e.2 = muted := fun _ _ _ he _ => eq_muted_of_unless he
    refine (?_ : ∀ p ∈ _, ∀ e ∈ p.2, ¬ e.1 = "bass" → e.2 = muted) p hp e he (hl ▸ hbass)
    simp only [List.forall_mem_cons, List.forall_mem_append, List.not_mem_nil, IsEmpty.forall_iff,
      implies_true, and_true, true_and, not_true]
    exact ⟨⟨⟨hmuted _ _, hmuted _ _⟩, hunless _⟩,
      ⟨⟨hmuted _ _, hmuted _ _⟩, hmuted _ _⟩, hunless _⟩
  · rcases hlayer with ⟨rfl, hx⟩ | ⟨rfl, hx⟩ <;> rw [hx] <;> simp [Table.get?_cons]

theorem Faint.id_of_none (hs : Faint params id none layer x) : id = "ambient" ∨ id = "rap-80s" := by
  cases hs with
  | sparkle => exact .inl rfl
  | texture => exact .inr rfl
  | textureAlt => exact .inr rfl

theorem Faint.id_of_some (hs : Faint params id (some phase) layer x) : id = "ambient" := by
  cases hs with
  | bass => rfl

/-- A faint gain is what plays, unless the layer is silent in the phase. -/
theorem faint_levels {t : Template} (ht : t ∈ catalog) (h : t.adjust params seed = .ok a)
    (hs : Faint params t.id none layer x ∨ Faint params t.id (some phase) layer x) :
    a.levelsIn phase layer = some (gain x) ∨
      (a.levelsIn phase layer = none ∨ a.Mutes phase layer) ∧
        a.levels.get? layer = some (gain x) := by
  have hambient : Ambient.template ∈ catalog := by simp [catalog]
  have hrap : Rap80s.template ∈ catalog := by simp [catalog]
  rcases hs with hs | hs
  · rcases hs.id_of_none with hid | hid
    · obtain rfl := eq_of_id_eq ht hambient hid
      exact .inr (Ambient.levels_faint seed h hs phase)
    · obtain rfl := eq_of_id_eq ht hrap hid
      exact .inr (Rap80s.levels_faint seed h hs phase)
  · obtain rfl := eq_of_id_eq ht hambient hs.id_of_some
    exact .inl (Ambient.levelsIn_faint seed h hs)

end Faint

end Catalog

section Resolved

variable {params : Params} {id seed phase : String} {a : Adjustments} {layer : Layer} {g : Binary64}

theorem resolveLevels_gain (layer : Layer) (phase : String) (a : Adjustments) :
    (resolveLevels layer phase [] a).gain = ((a.levelsIn phase layer.id).bind Levels.gain <|>
      (a.levels.get? layer.id).bind Levels.gain <|> layer.levels.gain) := by
  rw [resolveLevels, ← Adjustments.levelsIn]
  cases a.levelsIn phase layer.id <;> cases a.levels.get? layer.id <;>
    simp [Levels.underAny, Levels.under, Table.get?_nil]

/-- The gain of a layer in a phase: loud, silent because the phase mutes it, or faint. -/
inductive Resolves (params : Params) (id phase : String) (a : Adjustments) (layer : String) :
    Binary64 → Prop
  | loud {g : Binary64} (within : Between 0.025 1 g) : Resolves params id phase a layer g
  | mute (mutes : a.Mutes phase layer) : Resolves params id phase a layer 0
  | faint {x : Binary64}
    (spot : Catalog.Faint params id none layer x ∨ Catalog.Faint params id (some phase) layer x) :
    Resolves params id phase a layer (Decimal.roundTo 3 x)

theorem catalog_gains : ∀ t ∈ catalog, ∀ layer ∈ t.rules.layers,
    ∃ g ∈ layer.levels.gain, g.isFinite ∧ 0.025 ≤ g ∧ g ≤ 1 := by
  decide +kernel

theorem resolves_of_sets {scope : Option String} {l : Levels} {rest : Option Binary64} {id' : String}
    (h : Catalog.Sets params id scope id' l)
    (hscope : scope = none ∨ scope = some phase ∧ a.levelsIn phase id' = some l)
    (hrest : ∃ g, rest = some g ∧ Resolves params id phase a id' g) :
    ∃ g, (l.gain <|> rest) = some g ∧ Resolves params id phase a id' g := by
  cases h with
  | loud hloud =>
    cases hg : l.gain with
    | none => simpa using hrest
    | some g => exact ⟨g, rfl, .loud (hloud g hg)⟩
  | mute in_phase =>
    rcases hscope with rfl | ⟨-, hin⟩
    · cases in_phase
    · exact ⟨_, rfl, .mute hin⟩
  | faint spot =>
    rcases hscope with rfl | ⟨rfl, -⟩
    · exact ⟨_, rfl, .faint (.inl spot)⟩
    · exact ⟨_, rfl, .faint (.inr spot)⟩

theorem exists_resolves {t : Template} (ht : t ∈ catalog) (h : t.adjust params seed = .ok a)
    (hlayer : layer ∈ t.rules.layers) (phase : String) :
    ∃ g, (resolveLevels layer phase [] a).gain = some g ∧ Resolves params t.id phase a layer.id g := by
  obtain ⟨hall, hphases⟩ := Catalog.adjust_sets ht h
  rw [resolveLevels_gain]
  -- What is set last counts, and what is set without a gain leaves it to what was set before.
  have hown : ∃ g, layer.levels.gain = some g ∧ Resolves params t.id phase a layer.id g := by
    obtain ⟨g, hg, hfinite, hlow, hhigh⟩ := catalog_gains t ht layer hlayer
    exact ⟨g, hg, .loud (Binary64.between_of_le (by decide +kernel) (by decide +kernel) hfinite hlow
      hhigh (by decide +kernel))⟩
  have hbuild : ∃ g, ((a.levels.get? layer.id).bind Levels.gain <|> layer.levels.gain) = some g ∧
      Resolves params t.id phase a layer.id g := by
    cases hl : a.levels.get? layer.id with
    | none => exact hown
    | some l => exact resolves_of_sets (hall _ (Table.mem_of_get? hl)) (.inl rfl) hown
  cases hl : a.levelsIn phase layer.id with
  | none => exact hbuild
  | some l =>
    obtain ⟨p, hp, rfl, he⟩ := Adjustments.mem_of_levelsIn hl
    exact resolves_of_sets (hphases p hp _ he) (.inr ⟨rfl, hl⟩) hbuild

end Resolved

section Rounded

variable {x : Binary64}

theorem between_of_quiet (h : Between 0 1 x) (hx : x.value ≤ 49 / 2000) :
    Between 0 0.024 (Decimal.roundTo 3 x) := by
  obtain ⟨u, hu, rfl⟩ := h.isAmount.1.exists_magnitude h.isAmount.2
  have hcount : Decimal.scaled 3 u ≤ 24 := (Decimal.scaled_le_iff hu rfl).mpr (by linarith)
  have hbetween := Binary64.between_roundTo 3 hu (Nat.zero_le _) hcount (by decide +kernel)
  exact hbetween.widen (by decide +kernel) (by decide +kernel)

theorem between_of_lt (h : Between 0 1 x) (hx : 49 / 2000 < x.value) :
    Between 0.025 1 (Decimal.roundTo 3 x) := by
  obtain ⟨u, hu, rfl⟩ := h.isAmount.1.exists_magnitude h.isAmount.2
  have hone : (Binary64.finite false u hu).value ≤ 1 := by
    simpa [Binary64.value_one] using h.le_high
  have hlow : 25 ≤ Decimal.scaled 3 u := by
    by_contra hlt
    have hle := (@Decimal.scaled_le_iff 3 u 24 hu rfl).mp (by omega)
    norm_num at hle
    linarith
  have hhigh : Decimal.scaled 3 u ≤ 1000 := (Decimal.scaled_le_iff hu rfl).mpr (by linarith)
  have hbetween := Binary64.between_roundTo 3 hu hlow hhigh (by decide +kernel)
  exact hbetween.widen (by decide +kernel) (by decide +kernel)

end Rounded

section Lines

variable {t : Template} {params : Params} {seed phase pattern text : String} {a : Adjustments}
  {layer : Layer}

/-- A layer of which nothing is heard in a phase, as it is muted there or too faint. -/
def Template.Silences (t : Template) (params : Params) (a : Adjustments) (phase layer : String) :
    Prop := a.Mutes phase layer ∨ Catalog.Quiet params t.id phase layer

theorem gain_of_silences (ht : t ∈ catalog) (h : t.adjust params seed = .ok a)
    (hs : t.Silences params a phase layer.id) :
    ∃ g, (resolveLevels layer phase [] a).gain = some g ∧ Between 0 0.024 g := by
  have hmuted : a.Mutes phase layer.id →
      ∃ g, (resolveLevels layer phase [] a).gain = some g ∧ Between 0 0.024 g := by
    intro hmutes
    have hzero : Between 0 0 0 := Binary64.between_self (by decide +kernel)
    exact ⟨0, by rw [resolveLevels_gain, hmutes]; rfl,
      hzero.widen (by decide +kernel) (by decide +kernel)⟩
  rcases hs with hmutes | ⟨x, hspot, hx⟩
  · exact hmuted hmutes
  · have hquiet := between_of_quiet (hspot.elim Catalog.Faint.between Catalog.Faint.between) hx
    rcases Catalog.faint_levels seed ht h hspot with hin | ⟨hnone | hmutes, hbuild⟩
    · exact ⟨_, by rw [resolveLevels_gain, hin]; rfl, hquiet⟩
    · exact ⟨_, by rw [resolveLevels_gain, hnone, hbuild]; rfl, hquiet⟩
    · exact hmuted hmutes

theorem gain_of_not_silences (ht : t ∈ catalog) (h : t.adjust params seed = .ok a)
    (hlayer : layer ∈ t.rules.layers) (hs : ¬ t.Silences params a phase layer.id) :
    ∃ g, (resolveLevels layer phase [] a).gain = some g ∧ Between 0.025 1 g := by
  obtain ⟨g, hg, hresolves⟩ := exists_resolves ht h hlayer phase
  refine ⟨g, hg, ?_⟩
  cases hresolves with
  | loud within => exact within
  | mute mutes => exact absurd (.inl mutes) hs
  | faint spot =>
    have hwithin := spot.elim Catalog.Faint.between Catalog.Faint.between
    exact between_of_lt hwithin (not_le.mp fun hx => hs (.inr ⟨_, spot, hx⟩))

/-- The line of a layer, whose gain is zero where it is silent and above zero elsewhere. -/
def Layer.Printed (layer : Layer) (silent : Prop) (pattern text : String) : Prop :=
  ∃ printed after, text = layer.source pattern ++ ".gain(" ++ printed ++ ")" ++ after ∧
    (silent → printed = "0") ∧ (¬ silent → SpellsPositive printed)

theorem Layer.printed (ht : t ∈ catalog) (h : t.adjust params seed = .ok a)
    (hlayer : layer ∈ t.rules.layers)
    (htext : layer.expression pattern (resolveLevels layer phase [] a) a = .ok text) :
    layer.Printed (t.Silences params a phase layer.id) pattern text := by
  by_cases hs : t.Silences params a phase layer.id
  · obtain ⟨g, hg, hbetween⟩ := gain_of_silences ht h hs
    obtain ⟨call, after, hcall, rfl⟩ := expression_gain hg hbetween.isAmount.2 htext
    obtain rfl := Except.ok.inj (hcall.symm.trans (levelCall_faint hbetween))
    exact ⟨"0", after, by simp only [String.append_assoc], fun _ => rfl, fun hn => absurd hs hn⟩
  · obtain ⟨g, hg, hbetween⟩ := gain_of_not_silences ht h hlayer hs
    obtain ⟨call, after, hcall, rfl⟩ := expression_gain hg hbetween.isAmount.2 htext
    obtain ⟨printed, hspells, hloud⟩ := levelCall_loud hbetween
    obtain rfl := Except.ok.inj (hcall.symm.trans hloud)
    exact ⟨printed, after, by simp only [String.append_assoc], fun hn => absurd hn hs,
      fun _ => hspells⟩

end Lines

section Programs

variable {t : Template}

theorem phases_levels_isEmpty : ∀ t ∈ catalog, ∀ phase ∈ t.rules.phases, phase.levels.isEmpty := by
  decide +kernel

/-- The rules of a template, or those that stand in for them in a section of an arrangement. -/
def Template.Follows (t : Template) (rules : Option RuleSet) : Prop :=
  rules = none ∨ ∃ phase ∈ t.rules.phases, rules = some (t.rules.focusedOn phase)

theorem Template.Follows.layers {rules : Option RuleSet} (h : t.Follows rules) :
    (rules.getD t.rules).layers = t.rules.layers := by
  rcases h with rfl | ⟨phase, _, rfl⟩ <;> rfl

theorem Template.Follows.levels {rules : Option RuleSet} (h : t.Follows rules) (ht : t ∈ catalog)
    {n : Int} {segments : List Segment} (hsegments : (rules.getD t.rules).segments n = .ok segments)
    {segment : Segment} (hsegment : segment ∈ segments) : segment.levels = [] := by
  have hempty : ∀ phase ∈ (rules.getD t.rules).phases, phase.levels = [] := by
    intro phase hphase
    rcases h with rfl | ⟨own, hown, rfl⟩
    · exact List.isEmpty_iff.mp (phases_levels_isEmpty t ht phase hphase)
    · obtain rfl := List.mem_singleton.mp hphase
      exact List.isEmpty_iff.mp (phases_levels_isEmpty t ht own hown)
  rw [Segment.levels]
  cases hphase : segment.phase with
  | none => rfl
  | some phase => exact hempty phase (RuleSet.segments_phase_mem hsegments hsegment hphase)

/-- How a program of a template is written: its segments, and a line for each of their layers. -/
structure Template.Writes (t : Template) (rules : Option RuleSet) (bpm bars : Binary64)
    (params : Params) (seed code : String) (a : Adjustments) (segments : List Segment)
    (texts : List (List String)) : Prop where
  adjusts : t.adjust params seed = .ok a
  cuts : ∃ n, safeBars bars = .ok n ∧ (rules.getD t.rules).segments n = .ok segments
  lines : List.Forall₂ (fun segment members => List.Forall₂ (fun layer text =>
      (rules.getD t.rules).memberText seed a segment layer = .ok text)
    ((rules.getD t.rules).members segment) members) segments texts
  text : code = tempoHeader bpm ++ "\n" ++ sequence (blocksFrom 1 segments texts)

theorem Template.exists_writes {rules : Option RuleSet} {bpm bars : Binary64} {params : Params}
    {seed code : String} (h : t.program bpm bars params seed rules = .ok code) :
    ∃ a segments texts, t.Writes rules bpm bars params seed code a segments texts := by
  obtain ⟨a, ha, hprogram⟩ := bind_eq_ok.mp h
  obtain ⟨_, _, n, segments, blocks, hn, hsegments, hblocks, hcode⟩ := program_eq_ok.mp hprogram
  obtain ⟨texts, htexts, rfl⟩ := segmentBlocks_eq_blocksFrom.mp hblocks
  exact ⟨a, segments, texts, ha, ⟨n, hn, hsegments⟩, htexts, hcode⟩

/-- Every line of a program of the catalog prints a gain above zero, unless its layer is muted in
the phase or its gain is one of those that may be faint and is. -/
theorem Template.program_audible (ht : t ∈ catalog) {rules : Option RuleSet}
    (hrules : t.Follows rules) {bpm bars : Binary64} {params : Params} {seed code : String}
    (h : t.program bpm bars params seed rules = .ok code) :
    ∃ a segments texts, t.Writes rules bpm bars params seed code a segments texts ∧
      ∀ segment ∈ segments, ∀ layer ∈ (rules.getD t.rules).members segment, ∀ text,
        (rules.getD t.rules).memberText seed a segment layer = .ok text →
          ∃ pattern, layer.Printed (t.Silences params a segment.id layer.id) pattern text := by
  obtain ⟨a, segments, texts, hwrites⟩ := exists_writes h
  obtain ⟨n, _, hsegments⟩ := hwrites.cuts
  refine ⟨a, segments, texts, hwrites, fun segment hsegment layer hmember text htext => ?_⟩
  have hlayer := layer_of_mem_members hmember
  rw [hrules.layers] at hlayer
  rw [RuleSet.memberText, hrules.levels ht hsegments hsegment] at htext
  exact ⟨_, Layer.printed ht hwrites.adjusts hlayer htext⟩

end Programs

section Still

open Catalog.Ambient (template rules)

/-- Ambient music that does not move. -/
def stillParams : Params := [("rotate", .bool true), ("air", .real 0.7), ("motion", .real 0)]

def claimedPlacement (phase : Phase) : Placement :=
  ⟨phase, (phase.bars.getD (1, 1)).1, (phase.bars.getD (1, 1)).2⟩

theorem ambient_segments :
    rules.segments 64 = .ok (cover 64 1 0 (rules.phases.map claimedPlacement)) := by
  have hscale : rules.scale 64 = .ok 1 := by decide +kernel
  have hclaims : ∀ phase ∈ rules.phases, claimedBars phase 64 1 = .ok (phase.bars.getD (1, 1)) ∧
      clampBar (phase.bars.getD (1, 1)).1 64 = .ok (phase.bars.getD (1, 1)).1 ∧
      clampBar (phase.bars.getD (1, 1)).2 64 = .ok (phase.bars.getD (1, 1)).2 := by decide +kernel
  have hplaced : rules.placements 64 = .ok (rules.phases.map claimedPlacement) := by
    refine bind_eq_ok.mpr ⟨1, hscale, mapM_eq_ok.mpr ?_⟩
    rw [List.forall₂_map_right_iff, List.forall₂_same]
    intro phase hphase
    obtain ⟨hclaimed, hfirst, hlast⟩ := hclaims phase hphase
    exact bind_eq_ok.mpr
      ⟨_, hclaimed, bind_eq_ok.mpr ⟨_, hfirst, bind_eq_ok.mpr ⟨_, hlast, rfl⟩⟩⟩
  have hsorted : Placement.inOrder (rules.phases.map claimedPlacement) =
      rules.phases.map claimedPlacement := List.mergeSort_of_pairwise (by decide +kernel)
  exact bind_eq_ok.mpr ⟨_, hplaced, by rw [hsorted]; rfl⟩

theorem still_program : ∃ code, template.program 74 64 stillParams "seed" none = .ok code := by
  have hbars : safeBars 64 = .ok 64 := by decide +kernel
  have hok : (do
      let adjustments ← template.adjust stillParams "seed"
      segmentBlocks rules (homePatterns (.ofSeed "seed") rules.layers)
        (adjustments.rotate.getD rules.rotate) adjustments 1
        (cover 64 1 0 (rules.phases.map claimedPlacement))).isOk := by
    decide +kernel
  obtain ⟨blocks, hblocks⟩ := eq_ok_of_isOk hok
  obtain ⟨adjustments, hadjust, hblocks⟩ := bind_eq_ok.mp hblocks
  exact ⟨_, bind_eq_ok.mpr ⟨adjustments, hadjust, program_eq_ok.mpr
    ⟨by decide +kernel, by decide +kernel, 64, _, blocks, hbars, ambient_segments, hblocks, rfl⟩⟩⟩

theorem still_audible : template ∈ catalog ∧ template.Follows none ∧
    ∃ code a segments texts, template.program 74 64 stillParams "seed" none = .ok code ∧
      template.Writes none 74 64 stillParams "seed" code a segments texts ∧
      ∀ segment ∈ segments, ∀ layer ∈ rules.members segment, ∀ text,
        rules.memberText "seed" a segment layer = .ok text →
          ∃ pattern, layer.Printed (template.Silences stillParams a segment.id layer.id) pattern
            text := by
  have hmem : template ∈ catalog := by simp [catalog]
  obtain ⟨code, hcode⟩ := still_program
  obtain ⟨a, segments, texts, hwrites, hprinted⟩ :=
    Template.program_audible hmem (.inl rfl) hcode
  exact ⟨hmem, .inl rfl, code, a, segments, texts, hcode, hwrites, hprinted⟩

/-- Where the bass softens it is not heard, though nothing mutes it. -/
theorem still_not_heard : template ∈ catalog ∧
    (∀ e ∈ stillParams, ∃ spec ∈ template.schema, spec.key = e.1 ∧ spec.Admits e.2) ∧
    ∃ code a segments texts, template.program 74 64 stillParams "seed" none = .ok code ∧
      template.Writes none 74 64 stillParams "seed" code a segments texts ∧
      ∃ segment ∈ segments, ∃ layer ∈ rules.members segment, ¬ a.Mutes segment.id layer.id ∧
        rules.memberText "seed" a segment layer =
          .ok "note(\"f2 ~ ~ ~\").s(\"sine\").gain(0)" := by
  have hadmits : ∀ e ∈ stillParams, ∃ spec ∈ template.schema, spec.key = e.1 ∧ spec.Admits e.2 := by
    simp only [stillParams, List.forall_mem_cons]
    refine ⟨⟨_, List.mem_of_getElem? (i := 0) rfl, rfl, .truth rfl⟩,
      ⟨_, List.mem_of_getElem? (i := 1) rfl, rfl, .number rfl ?_⟩,
      ⟨_, List.mem_of_getElem? (i := 2) rfl, rfl, .number rfl ?_⟩, by simp⟩ <;>
      exact ⟨by decide +kernel, by decide +kernel, by decide +kernel⟩
  have hsoft : (do
      let adjustments ← template.adjust stillParams "seed"
      rules.memberText "seed" adjustments ⟨some Catalog.Ambient.phases[8], 55, 58, 8⟩
        Catalog.Ambient.layers[1]) = .ok "note(\"f2 ~ ~ ~\").s(\"sine\").gain(0)" := by
    decide +kernel
  have hmotion : Catalog.clamped stillParams "motion" 0 1 0.4 = .ok 0 := by decide +kernel
  have hgain : Catalog.gain (0.02 + 0 * 0.05) ≠ Catalog.muted := by decide +kernel
  have hbars : safeBars 64 = .ok 64 := by decide +kernel
  obtain ⟨code, hcode⟩ := still_program
  obtain ⟨a, segments, texts, hwrites⟩ := Template.exists_writes hcode
  refine ⟨by simp [catalog], hadmits, code, a, segments, texts, hcode, hwrites, ?_⟩
  obtain ⟨n, hn, hsegments⟩ := hwrites.cuts
  obtain rfl := Except.ok.inj (hn.symm.trans hbars)
  obtain rfl := Except.ok.inj (hsegments.symm.trans ambient_segments)
  obtain ⟨a', ha', hsoft⟩ := bind_eq_ok.mp hsoft
  obtain rfl := Except.ok.inj (hwrites.adjusts.symm.trans ha')
  have hlevels := Catalog.Ambient.levelsIn_faint "seed" hwrites.adjusts (.bass hmotion)
  refine ⟨_, List.mem_of_getElem? (i := 8) rfl, Catalog.Ambient.layers[1], ?_, ?_, hsoft⟩
  · exact List.mem_filterMap.mpr ⟨"bass", by decide, rfl⟩
  · intro hmutes
    exact hgain (Option.some.inj (hlevels.symm.trans hmutes))

-- A tenth of the motion is enough to hear it.
example : levelCall "gain" gainStep (Decimal.roundTo 3 (0.02 + 0.1 * 0.05)) = .ok ".gain(0.05)" := by
  decide +kernel

end Still

end PatternLoom
