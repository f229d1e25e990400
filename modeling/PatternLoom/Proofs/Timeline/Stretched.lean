import PatternLoom.Proofs.Timeline.Ownership
import PatternLoom.Proofs.Timeline.Scaled

/-! Declared phases stretched to the bars of a piece. The scale is rounded before the last declared
bar is multiplied by it, so the product may fall short of the piece, and then its integer part is a
whole bar short. -/

namespace PatternLoom

section Products

variable {scale : Binary64} {declared bars : Nat}

/-- The product of the scale and what it was made from is off by one rounding of the scale. -/
theorem abs_mul_scale_sub_le (hdeclared : 1 ≤ declared) (hdeclared' : declared ≤ 2 ^ 20)
    (hbars : 1 ≤ bars) (h : Binary64.ofQuotient bars declared = .ok scale) :
    |declared * scale.value - bars| ≤ (bars : ℚ) / 2 ^ 53 := by
  have hpos : (0 : ℚ) < declared := Nat.cast_pos.mpr hdeclared
  have hlarge : (1 : ℚ) / 2 ^ 100 ≤ bars / declared := by
    have hone : (1 : ℚ) ≤ bars := Nat.one_le_cast.mpr hbars
    have hsmall : (declared : ℚ) ≤ 2 ^ 100 := by
      exact_mod_cast hdeclared'.trans (Nat.pow_le_pow_right two_pos (by decide))
    exact div_le_div₀ (by positivity) hone hpos hsmall
  have herror := (Binary64.isRounding_ofQuotient hdeclared h).abs_sub_le
    (Binary64.isFinite_of_ofQuotient h) hlarge
  calc |declared * scale.value - bars|
      = declared * |scale.value - bars / declared| := by
        rw [← abs_of_pos hpos, ← abs_mul, abs_of_pos hpos, mul_sub, mul_div_cancel₀ _ hpos.ne']
    _ ≤ declared * (bars / declared / 2 ^ 53) := mul_le_mul_of_nonneg_left herror hpos.le
    _ = bars / 2 ^ 53 := by rw [← mul_div_assoc, mul_div_cancel₀ _ hpos.ne']

/-- The last declared bar is moved to the last bar of the piece or to the one before it. -/
theorem scaledEnd_declared (hdeclared : 1 ≤ declared) (hdeclared' : declared ≤ 2 ^ 20)
    (hbars : 1 ≤ bars) (hbars' : bars ≤ 2 ^ 20) (h : Binary64.ofQuotient bars declared = .ok scale) :
    ∃ last : Int, scaledEnd scale declared = .ok last ∧ last ≤ bars ∧ bars ≤ last + 1 ∧
      (bars ≤ max 1 last ↔ (bars : ℚ) - declared * scale.value ≤ 2 ^ (bars - 1).log2 / 2 ^ 53) := by
  obtain ⟨x, hx, hwhole, hvalue⟩ := Binary64.ofInt_eq_whole (n := declared) (by omega)
  obtain ⟨hnext, hnextv⟩ := Binary64.ofFraction_one (m := bars + 1) (by omega)
  have hscale := (Binary64.isRounding_ofQuotient hdeclared h).unsigned
  have hproduct := Binary64.isRounding_mul hwhole.1 hscale hwhole.2 (Binary64.isFinite_of_ofQuotient h)
  rw [hvalue] at hproduct
  obtain ⟨hlow, hhigh⟩ := abs_le.mp (abs_mul_scale_sub_le hdeclared hdeclared' hbars h)
  generalize (declared : ℚ) * scale.value = v at hproduct hlow hhigh ⊢
  have hsmall : (bars : ℚ) ≤ 2 ^ 20 := by exact_mod_cast hbars'
  have hfin : (x * scale).isFinite := by
    have hle : v ≤ (Binary64.ofFraction false (bars + 1) 1).value := by
      rw [hnextv]
      push_cast
      linarith
    exact hproduct.isFinite_of_le (Binary64.isRounding_self hnext.1 hnext.2) hle hnext.2
  obtain ⟨hlow', hhigh'⟩ := abs_le.mp (hproduct.abs_sub_le_add hfin)
  have hfloor := Binary64.floor_eq_ok hfin
  have hreached := @Binary64.le_floor_iff _ bars _ hfloor
  obtain ⟨hbelow, habove⟩ := Binary64.floor_le_value hfloor
  generalize (x * scale).units / (unitsPerOne : Int) = last at hfloor hreached hbelow habove
  -- Both roundings together are off by far less than a bar.
  have hle : (last : ℚ) < bars + 1 := by linarith
  have hge : (bars : ℚ) < last + 1 + 1 := by linarith
  refine ⟨last, bind_eq_ok.mpr ⟨x, hx, hfloor⟩, Int.lt_add_one_iff.mp (by exact_mod_cast hle),
    Int.lt_add_one_iff.mp (by exact_mod_cast hge), ?_⟩
  -- In a piece of one bar the last bar is reached from anywhere.
  rcases hbars.eq_or_lt with rfl | hpos
  · refine iff_of_true (le_max_left _ _) ?_
    simp only [Nat.cast_one, Nat.sub_self, Nat.log2_zero, pow_zero] at hlow ⊢
    linarith
  · rw [← hproduct.natCast_le_iff hfin hpos (by omega), le_max_iff,
      or_iff_right (show ¬ (bars : Int) ≤ 1 by omega), hreached, Int.cast_natCast]

end Products

section Segments

variable {rules : RuleSet}

/-- The piece falls silent in the end just if no phase claims its last bar. -/
theorem RuleSet.segments_silentEnd {bars : Int} {placed : List Placement}
    (h : rules.placements bars = .ok placed) (hb : 1 ≤ bars) :
    ∃ segments, rules.segments bars = .ok segments ∧
      ((∃ s ∈ segments.getLast?, s.isGap) ↔ ∀ p ∈ placed, p.claims bars = false) := by
  have hsorted := Placement.stablySorted_inOrder placed
  have hfits := inOrder_fits h hb
  have hclaim := cover_firstClaim hb hfits (hsorted.sorted.imp Placement.first_le_of_key_le)
  have hcovers : Covers bars 1 0 (cover bars 1 0 (Placement.inOrder placed)) :=
    covers_cover hfits (by omega)
  refine ⟨_, bind_eq_ok.mpr ⟨placed, h, rfl⟩, ?_⟩
  have hlast := List.getLast?_eq_some_getLast (hcovers.ne_nil hb)
  generalize (cover bars 1 0 (Placement.inOrder placed)).getLast _ = s at hlast
  have hs := List.mem_of_getLast? hlast
  have hend := hcovers.getLast_last s hlast
  have hholds : s.Holds bars := ⟨hend ▸ hcovers.first_le_last s hs, hend.ge⟩
  have hgap := hclaim.gap_iff s hs bars hholds
  simp only [hlast, Option.mem_some_iff, exists_eq_left', hgap, hsorted.perm.mem_iff]

/-- Phases stretched from their declared bars to those of a piece, of which they claim no bar behind
the bar `last`. That is the last bar of the piece unless the product of the scale and the declared
bars is less than it by more than half of the spacing of numbers there. -/
structure StretchedTo (bars declared : Nat) (scale : Binary64) (placed : List Placement)
    (segments : List Segment) (last : Int) : Prop where
  near : last = bars ∨ last + 1 = bars
  reaches_iff : last = bars ↔
    (bars : ℚ) - declared * scale.value ≤ 2 ^ (bars - 1).log2 / 2 ^ 53
  ends : ∀ p ∈ placed, ∀ range ∈ p.phase.bars, range.2 = declared → p.last = last
  last_le : ∀ p ∈ placed, p.last ≤ last
  silent_iff : (∃ s ∈ segments.getLast?, s.isGap) ↔ last < bars

theorem RuleSet.segments_stretched {declared bars : Nat} (hstretch : rules.stretch = true)
    (hwithin : ∀ phase ∈ rules.phases, phase.DeclaredWithin declared)
    (hattained : ∃ phase ∈ rules.phases, ∃ range ∈ phase.bars, range.2 = (declared : Int))
    (hdeclared : declared ≤ 2 ^ 20) (hb : 1 ≤ bars) (hmax : bars ≤ 2 ^ 20) :
    ∃ scale placed segments last, Binary64.ofQuotient bars declared = .ok scale ∧
      rules.placements bars = .ok placed ∧ placed.map Placement.phase = rules.phases ∧
      rules.segments bars = .ok segments ∧ StretchedTo bars declared scale placed segments last := by
  have hpos : 1 ≤ declared := by
    obtain ⟨phase, hphase, range, hrange, hstop⟩ := hattained
    obtain ⟨-, own, hown, hfirst, hlast, -⟩ := hwithin phase hphase
    obtain rfl := Option.some.inj (hrange.symm.trans hown)
    omega
  obtain ⟨scale, hscale, -⟩ := rules.scale_eq_ok (show (1 : Int) ≤ bars by omega) (by omega)
  have hquotient := hscale
  rw [RuleSet.scale, if_pos hstretch, declaredEnd_eq hwithin hattained] at hquotient
  obtain ⟨reached, hreached, hle, hge, hiff⟩ :=
    scaledEnd_declared hpos hdeclared hb hmax hquotient
  have hunsigned := (Binary64.isRounding_ofQuotient hpos hquotient).unsigned
  obtain ⟨reach, hscales, rfl⟩ := exists_scales
    ⟨hunsigned, Binary64.isFinite_of_ofQuotient hquotient⟩ hreached (by omega) hle
  obtain ⟨placed, hplaced, hmoved⟩ := hscales.placements_eq_ok hscale (by omega) hwithin
  obtain ⟨segments, hsegments, hsilent⟩ := RuleSet.segments_silentEnd hplaced (by omega)
  have hends := hscales.placed_ends (show (1 : Int) ≤ bars by omega) hwithin hmoved
  have hphases : placed.map Placement.phase = rules.phases := by
    rw [map_eq_of_forall₂ hmoved fun _ _ => Moved.phase_eq, List.map_id']
  refine ⟨scale, placed, segments, max 1 (reach declared), hquotient, hplaced, hphases, hsegments,
    by omega, by rw [← hiff]; omega, fun p hp => (hends p hp).2.2, fun p hp => (hends p hp).2.1, ?_⟩
  rw [hsilent]
  simp only [Placement.claims_eq_false]
  constructor
  · intro hnone
    obtain ⟨phase, hphase, range, hrange, hstop⟩ := hattained
    rw [← hphases] at hphase
    obtain ⟨p, hp, rfl⟩ := List.mem_map.mp hphase
    obtain ⟨hfirst, -, hlast⟩ := hends p hp
    have hend := hlast range hrange hstop
    have hnot := hnone p hp
    omega
  · intro hshort p hp
    have hend := (hends p hp).2.1
    omega

/-- One phase of eleven bars. -/
def elevenBars : RuleSet where
  layers := []
  phases := [{ id := "a", layers := [], bars := some (1, 11) }]
  stretch := true
  ids_nodup := List.nodup_nil

theorem elevenBars_within : ∀ phase ∈ elevenBars.phases, phase.DeclaredWithin (11 : Nat) := by
  simp [elevenBars, Phase.DeclaredWithin]

theorem elevenBars_stretched : elevenBars.stretch = true ∧
    (∀ phase ∈ elevenBars.phases, phase.DeclaredWithin (11 : Nat)) ∧
    (∃ phase ∈ elevenBars.phases, ∃ range ∈ phase.bars, range.2 = ((11 : Nat) : Int)) ∧
    ∃ scale placed segments last, Binary64.ofQuotient (22 : Nat) (11 : Nat) = .ok scale ∧
      elevenBars.placements (22 : Nat) = .ok placed ∧
      placed.map Placement.phase = elevenBars.phases ∧
      elevenBars.segments (22 : Nat) = .ok segments ∧
      StretchedTo 22 11 scale placed segments last := by
  have hattained : ∃ phase ∈ elevenBars.phases, ∃ range ∈ phase.bars,
      range.2 = ((11 : Nat) : Int) := by
    decide
  exact ⟨rfl, elevenBars_within, hattained, RuleSet.segments_stretched rfl elevenBars_within hattained
    (by decide) (by decide) (by decide)⟩

/-- Stretched to fifteen bars they end with the fourteenth. -/
theorem elevenBars_short : ∃ placed segments, elevenBars.placements 15 = .ok placed ∧
    placed.map Placement.last = [14] ∧ elevenBars.segments 15 = .ok segments ∧
    segments.getLast?.map Segment.id = some "gap-15-15" := by
  have hok : (elevenBars.placements 15).isOk := by decide +kernel
  obtain ⟨placed, hplaced⟩ := eq_ok_of_isOk hok
  have hends : (elevenBars.placements 15).toOption.map
      (fun placed => placed.map fun p => (p.first, p.last)) = some [(1, 14)] := by decide +kernel
  rw [hplaced] at hends
  obtain ⟨p, rfl, hp⟩ := List.map_eq_singleton_iff.mp (Option.some.inj hends)
  obtain ⟨hfirst, hlast⟩ := Prod.mk.inj hp
  have hcover : cover 15 1 0 [p] = [⟨some p.phase, 1, 14, 0⟩, ⟨none, 15, 15, 1⟩] := by
    simp [cover, hfirst, hlast]
  refine ⟨[p], _, hplaced, by rw [List.map_singleton, hlast],
    bind_eq_ok.mpr ⟨[p], hplaced, rfl⟩, ?_⟩
  rw [Placement.inOrder, List.mergeSort_singleton, hcover]
  rfl

end Segments

end PatternLoom
