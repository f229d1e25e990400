import Mathlib
import PatternLoom.Catalog
import PatternLoom.Proofs.Timeline.Ownership
import PatternLoom.Proofs.Timeline.Scaled

/-! Pieces without gaps. Tiled phases leave no bar out. Phases given in bars are scaled and cut off
one by one, but the end of one and the start of the next come from the same product, so ranges that
follow each other still do; and the last of them ends with the piece where the scale is exact, as it
is for a declared length that is a power of two. -/

namespace PatternLoom

/-- Every bar of the piece is in a segment of one of the phases, and no segment is a gap. -/
structure RuleSet.Unbroken (rules : RuleSet) (bars : Int) (segments : List Segment) : Prop where
  segments_eq : rules.segments bars = .ok segments
  no_gap : ∀ s ∈ segments, s.isGap = false
  played : ∀ b, 1 ≤ b → b ≤ bars → ∃ s ∈ segments, s.Holds b ∧
    ∃ phase ∈ rules.phases, s.phase = some phase

theorem RuleSet.unbroken_of_claims {rules : RuleSet} {bars : Int} {placed : List Placement}
    (h : rules.placements bars = .ok placed) (hb : 1 ≤ bars)
    (hclaims : ∀ b, 1 ≤ b → b ≤ bars → ∃ p ∈ placed, p.claims b = true) :
    ∃ segments, rules.Unbroken bars segments := by
  have hsorted := Placement.stablySorted_inOrder placed
  have hfits := inOrder_fits h hb
  have hcovers : Covers bars 1 0 (cover bars 1 0 (Placement.inOrder placed)) :=
    covers_cover hfits (by omega)
  have hsegments : rules.segments bars = .ok (cover bars 1 0 (Placement.inOrder placed)) :=
    bind_eq_ok.mpr ⟨placed, h, rfl⟩
  have hgap : ∀ s ∈ cover bars 1 0 (Placement.inOrder placed), s.isGap = false := by
    intro s hs
    by_contra hgap
    -- A phase claims the first bar of the gap, but gaps have only bars that none claims.
    have hfirst := hcovers.cursor_le s hs
    have hlast := hcovers.last_le s hs
    have hle := hcovers.first_le_last s hs
    obtain ⟨p, hp, hclaim⟩ := hclaims s.first hfirst (by omega)
    have hnone := cover_gap hfits (hsorted.sorted.imp Placement.first_le_of_key_le) (by omega) hs
      (Bool.eq_true_of_not_eq_false hgap) ⟨le_rfl, hle⟩ p (hsorted.perm.mem_iff.mpr hp)
    rw [hclaim] at hnone
    cases hnone
  refine ⟨_, hsegments, hgap, fun b hlow hhigh => ?_⟩
  obtain ⟨before, s, after, hsplit, hold, _⟩ := hcovers.exists_holds hlow hhigh
  have hs : s ∈ cover bars 1 0 (Placement.inOrder placed) := by
    rw [hsplit]
    exact List.mem_append_right _ List.mem_cons_self
  obtain ⟨phase, hphase⟩ := Option.isSome_iff_exists.mp
    (Option.isNone_eq_false_iff.mp (hgap s hs))
  exact ⟨s, hs, hold, phase, segments_phase_mem hsegments hs hphase, hphase⟩

section Tiled

theorem tileFrom_claims {bars first : Int} {phases : List Phase} {ps : List Placement}
    (h : tileFrom bars first phases = .ok ps) (hne : phases ≠ []) {b : Int} (hf : first ≤ b)
    (hb : b ≤ bars) : ∃ p ∈ ps, p.claims b = true := by
  fun_induction tileFrom bars first phases generalizing ps with
  | case1 => exact absurd rfl hne
  | case2 first phase =>
    obtain rfl := Except.ok.inj h
    exact ⟨_, List.mem_singleton_self _, Placement.claims_iff.mpr ⟨hf, hb⟩⟩
  | case3 first phase next rest ih =>
    simp only [bind_eq_ok, pure_eq_ok] at h
    obtain ⟨before, _, ps', hps, rfl⟩ := h
    -- The next tile begins behind this one, so a bar that is not in it is not lost.
    by_cases hlast : b ≤ max first (min bars (max first (before + 1) - 1))
    · exact ⟨_, List.mem_cons_self, Placement.claims_iff.mpr ⟨hf, hlast⟩⟩
    · obtain ⟨p, hp, hclaim⟩ := ih before hps (List.cons_ne_nil _ _) (by omega)
      exact ⟨p, List.mem_cons_of_mem _ hp, hclaim⟩

theorem RuleSet.unbroken_of_shares {rules : RuleSet} {bars : Int} (hr : rules.InRange bars)
    (hne : rules.phases ≠ []) (hall : ∀ phase ∈ rules.phases, phase.share.isSome) (hb : 1 ≤ bars)
    (hmax : bars ≤ 2 ^ 50) : ∃ segments, rules.Unbroken bars segments := by
  obtain ⟨length, hlength, _⟩ := Binary64.ofInt_eq_ok (inReach_of_le (show bars.natAbs ≤ 2 ^ 51 by omega))
  obtain ⟨placed, htile, _⟩ := tile_eq_ok hr hlength hall
  have hplaced := (placements_eq_tile hne hall bars).trans htile
  refine unbroken_of_claims hplaced hb fun b hlow hhigh => tileFrom_claims htile ?_ hlow hhigh
  rw [← List.length_pos_iff, (sortBy_perm _ _ _).length_eq, List.length_pos_iff]
  exact hne

end Tiled

section Declared

/-- Phases given in bars that follow each other, from the bar behind `start` to the bar `stop`. -/
def RunsOn (stop : Int) : Int → List Phase → Prop
  | start, [] => start = stop
  | start, phase :: phases => phase.share.isNone ∧
      ∃ range ∈ phase.bars, range.1 = start + 1 ∧ start < range.2 ∧ RunsOn stop range.2 phases

instance decidableRunsOn (stop : Int) :
    (start : Int) → (phases : List Phase) → Decidable (RunsOn stop start phases)
  | start, [] => inferInstanceAs (Decidable (start = stop))
  | start, phase :: phases =>
    haveI := fun last => decidableRunsOn stop last phases
    inferInstanceAs (Decidable (_ ∧ ∃ range ∈ phase.bars, range.1 = start + 1 ∧ start < range.2 ∧
      RunsOn stop range.2 phases))

variable {stop start : Int} {phases : List Phase}

theorem RunsOn.start_le (h : RunsOn stop start phases) : start ≤ stop := by
  induction phases generalizing start with
  | nil => exact h.le
  | cons phase phases ih =>
    obtain ⟨_, range, _, _, hlt, hrest⟩ := h
    exact hlt.le.trans (ih hrest)

theorem RunsOn.mem (h : RunsOn stop start phases) : ∀ phase ∈ phases, phase.share = none ∧
    ∃ range ∈ phase.bars, start ≤ range.1 - 1 ∧ range.1 - 1 < range.2 ∧ range.2 ≤ stop := by
  induction phases generalizing start with
  | nil => simp
  | cons phase phases ih =>
    obtain ⟨hshare, range, hrange, hfirst, hlt, hrest⟩ := h
    rintro other (_ | ⟨_, hother⟩)
    · exact ⟨Option.isNone_iff_eq_none.mp hshare, range, hrange, by omega, by omega,
        hrest.start_le⟩
    · obtain ⟨hshare', range', hrange', hle, hrest'⟩ := ih hrest other hother
      exact ⟨hshare', range', hrange', by omega, hrest'⟩

theorem RunsOn.declaredWithin (h : RunsOn stop 0 phases) :
    ∀ phase ∈ phases, phase.DeclaredWithin stop := by
  intro phase hphase
  obtain ⟨hshare, range, hrange, hfirst, hlt, hlast⟩ := h.mem phase hphase
  exact ⟨hshare, range, hrange, by omega, by omega, hlast⟩

theorem RunsOn.attained (h : RunsOn stop start phases) (hlt : start < stop) :
    ∃ phase ∈ phases, ∃ range ∈ phase.bars, range.2 = stop := by
  induction phases generalizing start with
  | nil => exact absurd h hlt.ne
  | cons phase phases ih =>
    obtain ⟨_, range, hrange, _, _, hrest⟩ := h
    rcases hrest.start_le.lt_or_eq with hbehind | hend
    · obtain ⟨other, hother, hattained⟩ := ih hrest hbehind
      exact ⟨other, List.mem_cons_of_mem _ hother, hattained⟩
    · exact ⟨phase, List.mem_cons_self, range, hrange, hend⟩

/-- Wherever the ends of bars are moved to, a bar between the first and the last of them is behind
the start of some phase and not behind its end. -/
theorem RunsOn.exists_crossing (h : RunsOn stop start phases) (reach : Int → Int) {b : Int}
    (hlow : reach start < b) (hhigh : b ≤ reach stop) : ∃ phase ∈ phases, ∃ range ∈ phase.bars,
      reach (range.1 - 1) < b ∧ b ≤ reach range.2 := by
  induction phases generalizing start with
  | nil =>
    obtain rfl : start = stop := h
    omega
  | cons phase phases ih =>
    obtain ⟨_, range, hrange, hfirst, _, hrest⟩ := h
    by_cases hb : b ≤ reach range.2
    · have hstart : range.1 - 1 = start := by omega
      exact ⟨phase, List.mem_cons_self, range, hrange, hstart ▸ hlow, hb⟩
    · obtain ⟨other, hother, hcrossing⟩ := ih hrest (not_le.mp hb)
      exact ⟨other, List.mem_cons_of_mem _ hother, hcrossing⟩

end Declared

section Scaled

/-- A scale from a declared length to the bars of a piece, without an error. -/
structure IsExactScale (scale : Binary64) (declared bars : Nat) : Prop where
  unsigned : scale.Unsigned
  isFinite : scale.isFinite
  value_eq : scale.value = bars / declared

theorem isExactScale_two_pow {bars k : Nat} (hbars : bars ≤ 2 ^ 50) (hk : k ≤ 1074)
    {scale : Binary64} (h : Binary64.ofQuotient bars ((2 ^ k : Nat) : Int) = .ok scale) :
    IsExactScale scale (2 ^ k) bars := by
  obtain ⟨⟨hunsigned, hfin⟩, hvalue⟩ := Binary64.ofFraction_two_pow (hbars.trans (by decide)) hk
  rw [← Binary64.eq_of_ofQuotient (Nat.two_pow_pos k) h] at hunsigned hfin hvalue
  exact ⟨hunsigned, hfin, by rw [hvalue, Nat.cast_pow, Nat.cast_ofNat]⟩

variable {scale : Binary64} {declared bars : Nat}

theorem IsExactScale.scaledEnd_whole (h : IsExactScale scale declared bars) {bar reached : Nat}
    (hbar : bar < 2 ^ 52) (hreached : reached < 2 ^ 52)
    (he : (bar : ℚ) * (bars / declared) = reached) : scaledEnd scale bar = .ok reached := by
  obtain ⟨x, hx, hwhole, hxv⟩ := Binary64.ofInt_eq_whole hbar
  have hproduct := Binary64.isRounding_mul hwhole.1 h.unsigned hwhole.2 h.isFinite
  rw [hxv, h.value_eq, he] at hproduct
  exact bind_eq_ok.mpr ⟨x, hx, hproduct.floor_eq (hreached.le.trans (by decide))⟩

/-- Where the declared bars end in the piece. What is in front of the first bar stays there, and the
end of the last bar is the end of the piece. -/
structure Reaches (scale : Binary64) (declared bars : Int) (reach : Int → Int) : Prop
    extends Scales scale declared bars reach where
  reach_zero : reach 0 = 0
  reach_declared : reach declared = bars

theorem IsExactScale.exists_reaches (h : IsExactScale scale declared bars) (hpos : 0 < declared)
    (hdeclared : declared < 2 ^ 52) (hbars : bars < 2 ^ 52) :
    ∃ reach, Reaches scale declared bars reach := by
  have hdeclaredq : (declared : ℚ) ≠ 0 := by positivity
  have hlast := h.scaledEnd_whole hdeclared hbars (by field_simp)
  obtain ⟨reach, hscales, hreached⟩ := exists_scales ⟨h.unsigned, h.isFinite⟩ hlast hdeclared le_rfl
  have hzero : scaledEnd scale (0 : Nat) = .ok (0 : Nat) :=
    h.scaledEnd_whole (by decide) (by decide) (by simp)
  have hfirst := hscales.scaled 0 le_rfl (Int.natCast_nonneg _)
  exact ⟨reach, hscales, Except.ok.inj (hfirst.symm.trans hzero), hreached⟩

end Scaled

section Stretched

variable {scale : Binary64} {declared bars : Int} {reach : Int → Int}

theorem RuleSet.exists_reaches {rules : RuleSet} {k : Nat} (hstretch : rules.stretch = true)
    (hk : k ≤ 50) (hruns : RunsOn ((2 ^ k : Nat) : Int) 0 rules.phases) (hb : 1 ≤ bars)
    (hmax : bars ≤ 2 ^ 50) : ∃ scale reach, rules.scale bars = .ok scale ∧
      Reaches scale ((2 ^ k : Nat) : Int) bars reach := by
  have hpos := Nat.two_pow_pos k
  have hdeclared : 2 ^ k < 2 ^ 52 := Nat.pow_lt_pow_right (by decide) (by omega)
  obtain ⟨scale, hscale, _⟩ := rules.scale_eq_ok hb hmax
  have hquotient := hscale
  rw [RuleSet.scale, if_pos hstretch, declaredEnd_eq hruns.declaredWithin
    (hruns.attained (by exact_mod_cast hpos))] at hquotient
  obtain ⟨n, rfl⟩ := Int.eq_ofNat_of_zero_le (show 0 ≤ bars by omega)
  have hn : n ≤ 2 ^ 50 := by exact_mod_cast hmax
  obtain ⟨reach, hreach⟩ := (isExactScale_two_pow hn (by omega) hquotient).exists_reaches hpos
    hdeclared (hn.trans_lt (by decide))
  exact ⟨scale, reach, hscale, hreach⟩

theorem RuleSet.unbroken_of_runsOn {rules : RuleSet} {k : Nat} (hstretch : rules.stretch = true)
    (hk : k ≤ 50) (hruns : RunsOn ((2 ^ k : Nat) : Int) 0 rules.phases) (hb : 1 ≤ bars)
    (hmax : bars ≤ 2 ^ 50) : ∃ segments, rules.Unbroken bars segments := by
  obtain ⟨scale, reach, hscale, hreach⟩ := RuleSet.exists_reaches hstretch hk hruns hb hmax
  obtain ⟨placed, hplaced, hmoved⟩ := hreach.placements_eq_ok hscale hmax hruns.declaredWithin
  refine unbroken_of_claims hplaced hb fun b hlow hhigh => ?_
  obtain ⟨phase, hphase, range, hrange, hbefore, hreached⟩ := hruns.exists_crossing reach
    (hreach.reach_zero.trans_lt hlow) (hhigh.trans hreach.reach_declared.ge)
  obtain ⟨_, hp, range', hrange', rfl⟩ := exists_of_forall₂_right hmoved.flip hphase
  obtain rfl := Option.some.inj (hrange.symm.trans hrange')
  -- The bars of a phase are moved into the piece, and `b` is in it already.
  refine ⟨_, hp, Placement.claims_iff.mpr ?_⟩
  rw [movedTo]
  dsimp only
  omega

end Stretched

section Catalog

/-- A share of the piece, from nothing to the whole. -/
def IsPortion (share : Binary64) : Prop :=
  share.isFinite = true ∧ share.isNegative = false ∧ share ≤ 1

instance decidableIsPortion (share : Binary64) : Decidable (IsPortion share) :=
  inferInstanceAs (Decidable (_ ∧ _ ∧ _))

theorem IsPortion.isFinite_mul {share length : Binary64} {bars : Nat} (h : IsPortion share)
    (hlength : Binary64.ofInt bars = .ok length) : (share * length).isFinite := by
  obtain ⟨hfin, hneg, hle⟩ := h
  have hshare : share.Unsigned := ⟨Binary64.isNan_of_isFinite hfin, hneg⟩
  have hone : share.value ≤ 1 := by
    rwa [Binary64.le_iff_value hfin (by decide +kernel), Binary64.value_one] at hle
  have hl := (Binary64.isRounding_ofInt hlength).unsigned
  have hlfin := Binary64.isFinite_of_ofInt hlength
  have hproduct := Binary64.isRounding_mul hshare hl hfin hlfin
  exact hproduct.isFinite_of_le (Binary64.isRounding_self hl hlfin)
    (mul_le_of_le_one_left hl.value_nonneg hone) hlfin

theorem RuleSet.inRange_of_portions {rules : RuleSet} {bars : Int}
    (h : ∀ phase ∈ rules.phases, phase.bars.isNone ∧
      ∀ share ∈ phase.share, IsPortion share.1 ∧ IsPortion share.2) (hb : 1 ≤ bars) :
    rules.InRange bars where
  bars_le phase hphase range hrange := by
    have hnone := (h phase hphase).1
    rw [Option.mem_def.mp hrange] at hnone
    cases hnone
  shares_finite phase hphase share hshare length hlength := by
    obtain ⟨n, rfl⟩ := Int.eq_ofNat_of_zero_le (show 0 ≤ bars by omega)
    obtain ⟨hstart, hstop⟩ := (h phase hphase).2 share hshare
    exact ⟨hstart.isFinite_mul hlength, hstop.isFinite_mul hlength⟩

/-- The templates of the catalog tile their pieces, or declare sixteen or sixty-four bars. -/
theorem catalog_phases : ∀ t ∈ catalog,
    (t.rules.phases.isEmpty = false ∧ ∀ phase ∈ t.rules.phases, phase.bars.isNone ∧
      phase.share.isSome ∧ ∀ share ∈ phase.share, IsPortion share.1 ∧ IsPortion share.2) ∨
    (t.rules.stretch = true ∧ ∃ k ∈ [4, 6], RunsOn ((2 ^ k : Nat) : Int) 0 t.rules.phases) := by
  decide +kernel

/-- No piece of the catalog falls silent between its phases, however short or long it is. -/
theorem catalog_unbroken {t : Template} (ht : t ∈ catalog) {bars : Int} (hb : 1 ≤ bars)
    (hmax : bars ≤ 2 ^ 50) : ∃ segments, t.rules.Unbroken bars segments := by
  rcases catalog_phases t ht with ⟨hne, hshares⟩ | ⟨hstretch, k, hk, hruns⟩
  · have hr : t.rules.InRange bars := RuleSet.inRange_of_portions
      (fun phase hphase => ⟨(hshares phase hphase).1, (hshares phase hphase).2.2⟩) hb
    exact RuleSet.unbroken_of_shares hr (List.isEmpty_eq_false_iff.mp hne)
      (fun phase hphase => (hshares phase hphase).2.1) hb hmax
  · have hsmall : k ≤ 50 := by
      have hall : ∀ k ∈ [4, 6], k ≤ 50 := by decide
      exact hall k hk
    exact RuleSet.unbroken_of_runsOn hstretch hsmall hruns hb hmax

/-- Thirteen phases in seven bars. -/
theorem techno_unbroken : Catalog.Techno.template ∈ catalog ∧ (1 : Int) ≤ 7 ∧ (7 : Int) ≤ 2 ^ 50 ∧
    ∃ segments, Catalog.Techno.template.rules.Unbroken 7 segments := by
  have hmem : Catalog.Techno.template ∈ catalog := by simp [catalog]
  exact ⟨hmem, by decide, by decide, catalog_unbroken hmem (by decide) (by decide)⟩

end Catalog

end PatternLoom
