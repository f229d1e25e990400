import Mathlib
import PatternLoom.Proofs.Catalog.Entries
import PatternLoom.Proofs.Program.Shape

/-! Rule sets whose levels are of ordinary size. Counting a level in the steps of its grid fails only
where the count is out of range, so these have a program for every tempo above zero and every length
that can be divided among their phases. -/

namespace PatternLoom

open Binary64 (Between)

/-- An amount of up to eight. -/
structure Binary64.Modest (x : Binary64) : Prop where
  isAmount : x.IsAmount
  le_eight : x ≤ 8

instance : DecidablePred Binary64.Modest := fun x =>
  decidable_of_iff (x.IsAmount ∧ x ≤ 8) ⟨fun h => ⟨h.1, h.2⟩, fun h => ⟨h.1, h.2⟩⟩

theorem Binary64.Modest.between {x : Binary64} (h : x.Modest) : Between 0 8 x :=
  have height : (8 : Binary64).IsAmount := by decide +kernel
  ⟨⟨unsigned_zero, isFinite_zero⟩, height, h.isAmount,
    value_zero.trans_le h.isAmount.1.value_nonneg, (le_iff_value h.isAmount.2 height.2).mp h.le_eight⟩

structure Levels.Modest (l : Levels) : Prop where
  gain : ∀ x ∈ l.gain, x.Modest
  slow : ∀ x ∈ l.slow, x.Modest
  fast : ∀ x ∈ l.fast, x.Modest

instance : DecidablePred Levels.Modest := fun l =>
  decidable_of_iff ((∀ x ∈ l.gain, x.Modest) ∧ (∀ x ∈ l.slow, x.Modest) ∧ ∀ x ∈ l.fast, x.Modest)
    ⟨fun h => ⟨h.1, h.2.1, h.2.2⟩, fun h => ⟨h.gain, h.slow, h.fast⟩⟩

structure Adjustments.Modest (a : Adjustments) : Prop where
  levels : a.Each fun _ _ l => l.Modest
  lilts : a.Lilts

structure RuleSet.Modest (rules : RuleSet) : Prop where
  layers : ∀ layer ∈ rules.layers, layer.levels.Modest
  phases : ∀ phase ∈ rules.phases, ∀ e ∈ phase.levels, e.2.Modest

section Calls

/-- A step, with the number of steps to eight. -/
structure Counts (step : Binary64) (n : Nat) : Prop where
  step_isAmount : step.IsAmount ∧ 0 < step
  zero : (0 / step).roundHalfUp = .ok 0
  eight : (8 / step).roundHalfUp = .ok (n : Int)
  small : n ≤ 2 ^ 110

theorem gain_counts : Counts gainStep 160 := by
  constructor <;> decide +kernel

theorem slow_counts : Counts slowStep 32 := by
  constructor <;> decide +kernel

theorem fast_counts : Counts fastStep 400 := by
  constructor <;> decide +kernel

theorem swing_counts : Counts Groove.swingStep 400 := fast_counts

variable {step x : Binary64} {n : Nat}

theorem Counts.onGrid_eq_ok (hstep : Counts step n) (hx : x.Modest) :
    ∃ y, x.onGrid step = .ok y := by
  obtain ⟨k, hk, hlow, hhigh⟩ :=
    hx.between.roundHalfUp_div hstep.step_isAmount hstep.zero hstep.eight
  obtain ⟨m, rfl⟩ := Int.eq_ofNat_of_zero_le hlow
  have hsmall := hstep.small
  obtain ⟨y, hy, _⟩ := Binary64.ofInt_eq_ok
    (not_le.mp (Binary64.not_beyondRange (show (m : Int).natAbs ≤ 2 ^ 110 by omega)))
  rw [Binary64.onGrid]
  split
  · exact ⟨x, rfl⟩
  · exact ⟨y * step, bind_eq_ok.mpr ⟨_, hk, bind_eq_ok.mpr ⟨y, hy, rfl⟩⟩⟩

theorem Counts.levelCall_eq_ok (hstep : Counts step n) (hx : x.Modest) (name : String) :
    ∃ call, levelCall name step x = .ok call := by
  obtain ⟨y, hy⟩ := hstep.onGrid_eq_ok hx
  exact ⟨_, bind_eq_ok.mpr ⟨y, hy, rfl⟩⟩

theorem Counts.optionalCall_eq_ok (hstep : Counts step n) {level : Option Binary64}
    (hlevel : ∀ x ∈ level, x.Modest) (name : String) :
    ∃ call, optionalCall name step level = .ok call := by
  cases level with
  | none => exact ⟨"", rfl⟩
  | some x => exact hstep.levelCall_eq_ok (hlevel x rfl) name

theorem Groove.call_eq_ok {g : Groove} (hswing : g.swing.Modest)
    (hslots : g.subdivision = 4 ∨ g.subdivision = 8) : ∃ call, g.call = .ok call := by
  obtain ⟨amount, hamount⟩ := swing_counts.onGrid_eq_ok hswing
  have hcounted : ∃ slots, g.slots = .ok slots := by
    have hfinite : g.subdivision.isFinite := by
      rcases hslots with h | h <;> rw [h] <;> decide +kernel
    obtain ⟨k, hk⟩ := Binary64.roundHalfUp_eq_ok hfinite
    exact ⟨_, bind_eq_ok.mpr ⟨k, hk, rfl⟩⟩
  obtain ⟨slots, hslots⟩ := hcounted
  exact ⟨_, bind_eq_ok.mpr ⟨amount, hamount, bind_eq_ok.mpr ⟨slots, hslots, rfl⟩⟩⟩

theorem Layer.expression_eq_ok {levels : Levels} {a : Adjustments} (hl : levels.Modest)
    (ha : a.Lilts) (layer : Layer) (pattern : String) :
    ∃ text, layer.expression pattern levels a = .ok text := by
  have hdefault : defaultGain.Modest := by decide +kernel
  refine exists_bind_eq_ok (gain_counts.levelCall_eq_ok ?_ "gain") fun gainCall => ?_
  · split
    · rename_i g hg
      split
      · exact hl.gain g hg
      · exact hdefault
    · exact hdefault
  refine exists_bind_eq_ok (slow_counts.optionalCall_eq_ok hl.slow "slow") fun slowCall => ?_
  refine exists_bind_eq_ok (fast_counts.optionalCall_eq_ok hl.fast "fast") fun fastCall => ?_
  -- The call that swings a layer comes last, and is left out without a groove.
  dsimp only
  split
  · rename_i groove hgroove
    obtain ⟨⟨hamount, _, hle⟩, hslots⟩ := ha groove hgroove
    split
    · exact exists_bind_eq_ok (Groove.call_eq_ok ⟨hamount, hle⟩ hslots) fun swingCall => ⟨_, rfl⟩
    · exact ⟨_, rfl⟩
  · exact ⟨_, rfl⟩

end Calls

section Resolving

variable {lower : Levels} {a : Adjustments}

theorem modest_orElse {x y : Option Binary64} (hx : ∀ z ∈ x, z.Modest) (hy : ∀ z ∈ y, z.Modest) :
    ∀ z ∈ x <|> y, z.Modest := by
  cases x with
  | none => exact hy
  | some z => exact hx

theorem Levels.Modest.underAny (hlower : lower.Modest) {upper : Option Levels}
    (hupper : ∀ l ∈ upper, l.Modest) : (lower.underAny upper).Modest := by
  have hset : (upper.getD {}).Modest := by
    cases upper with
    | none => constructor <;> exact fun x hx => absurd hx (Option.not_mem_none x)
    | some l => exact hupper l rfl
  exact ⟨modest_orElse hset.gain hlower.gain, modest_orElse hset.slow hlower.slow,
    modest_orElse hset.fast hlower.fast⟩

theorem modest_of_get? {t : Table Levels} (ht : ∀ e ∈ t, e.2.Modest) (layer : String) :
    ∀ l ∈ t.get? layer, l.Modest :=
  fun _ hl => ht _ (Table.mem_of_get? hl)

theorem resolveLevels_modest {layer : Layer} (hlayer : layer.levels.Modest)
    {phaseLevels : Table Levels} (hphase : ∀ e ∈ phaseLevels, e.2.Modest) (ha : a.Modest)
    (phase : String) : (resolveLevels layer phase phaseLevels a).Modest := by
  have hown : ∀ e ∈ (a.phaseLevels.get? phase).getD [], e.2.Modest := by
    cases hget : a.phaseLevels.get? phase with
    | none => exact List.forall_mem_nil _
    | some own => exact ha.levels.2 _ (Table.mem_of_get? hget)
  exact ((hlayer.underAny (modest_of_get? ha.levels.1 _)).underAny
    (modest_of_get? hphase _)).underAny (modest_of_get? hown _)

end Resolving

section Programs

variable {rules : RuleSet} {a : Adjustments} {home : Table String} {rotate : Bool}

theorem segmentBlock_of_modest (hrules : rules.Modest) (ha : a.Modest) {segment : Segment}
    (hsegment : ∀ e ∈ segment.levels, e.2.Modest) (number : Nat) :
    ∃ block, segmentBlock rules home rotate a number segment = .ok block := by
  have hplays : ∀ layer ∈ rules.members segment, ∃ text, layer.expression
      (patternIn rotate home layer segment.index)
      (resolveLevels layer segment.id segment.levels a) a = .ok text := by
    intro layer hlayer
    have hlevels := hrules.layers layer (layer_of_mem_members hlayer)
    exact Layer.expression_eq_ok (resolveLevels_modest hlevels hsegment ha segment.id) ha.lilts _ _
  obtain ⟨members, hmembers⟩ := exists_forall₂_of_forall hplays
  exact ⟨_, segmentBlock_eq_ok.mpr ⟨members, hmembers, rfl⟩⟩

/-- A rule set with modest levels has a program for every length that its phases can divide. -/
theorem RuleSet.Modest.program_eq_ok (hrules : rules.Modest) (ha : a.Modest) {bpm bars : Binary64}
    (hfinite : bpm.isFinite) (hpos : ¬ bpm ≤ 0) {n : Int} (hbars : safeBars bars = .ok n)
    (hsegments : ∃ segments, rules.segments n = .ok segments) (seed : String) :
    ∃ code, rules.program bpm bars seed a = .ok code := by
  obtain ⟨segments, hsegments⟩ := hsegments
  have hplays : ∀ entry ∈ segments.zipIdx 1, ∃ block,
      segmentBlock rules (homePatterns (.ofSeed seed) rules.layers) (a.rotate.getD rules.rotate) a
        entry.2 entry.1 = .ok block := by
    intro entry hentry
    refine segmentBlock_of_modest hrules ha ?_ entry.2
    cases hphase : entry.1.phase with
    | none =>
      rw [Segment.levels, hphase]
      exact List.forall_mem_nil _
    | some phase =>
      have hmem := segments_phase_mem hsegments (List.fst_mem_of_mem_zipIdx hentry) hphase
      rw [Segment.levels, hphase]
      exact hrules.phases phase hmem
  obtain ⟨blocks, hblocks⟩ := exists_forall₂_of_forall hplays
  exact ⟨_, PatternLoom.program_eq_ok.mpr ⟨hfinite, hpos, n, segments, blocks, hbars, hsegments,
    segmentBlocks_eq_ok.mpr hblocks, rfl⟩⟩

end Programs

end PatternLoom
