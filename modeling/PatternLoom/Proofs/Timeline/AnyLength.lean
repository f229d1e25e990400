import PatternLoom.Proofs.Timeline.Unbroken

/-! Pieces of any length that there is a number for, far beyond those of ordinary size. Shares of such
a length are in range, and so is a declared length that is a power of two: the scale from it is exact,
and what it makes of the declared bars is no further than the end of the piece. -/

namespace PatternLoom

open Binary64 (IsRounding)

section Scale

variable {scale : Binary64} {bars k : Nat}

theorem precise_part {k : Nat} (hbars : 1 ≤ bars) (hrep : Representable (bars * unitsPerOne))
    (hk : k ≤ 50) : Precise (bars * 2 ^ (1074 - k)) := by
  have hunits : bars * unitsPerOne = 2 ^ k * (bars * 2 ^ (1074 - k)) := by
    rw [Binary64.unitsPerOne_split (show k ≤ 1074 by omega)]
    ring
  have hlarge : 2 ^ 52 ≤ bars * 2 ^ (1074 - k) :=
    calc 2 ^ 52 ≤ 2 ^ (1074 - k) := Nat.pow_le_pow_right two_pos (by omega)
      _ ≤ bars * 2 ^ (1074 - k) := Nat.le_mul_of_pos_left _ hbars
  have hprecise := hrep.precise
  rw [hunits] at hprecise
  exact hprecise.of_two_pow_mul ((Nat.le_log2 (Nat.pos_of_ne_zero (by omega)).ne').mpr hlarge)

theorem isExactScale_representable (hbars : 1 ≤ bars) (hrep : Representable (bars * unitsPerOne))
    (hk : k ≤ 50) (h : Binary64.ofQuotient bars ((2 ^ k : Nat) : Int) = .ok scale) :
    IsExactScale scale (2 ^ k) bars := by
  have hrounding := Binary64.isRounding_ofQuotient (Nat.two_pow_pos k) h
  have hfinite := Binary64.isFinite_of_ofQuotient h
  have hunits : (unitsPerOne : ℚ) = 2 ^ k * 2 ^ (1074 - k) := by
    rw [Binary64.unitsPerOne_split (show k ≤ 1074 by omega)]
    push_cast
    rfl
  obtain ⟨hu, he⟩ := hrounding.eq_finite hfinite (precise_part hbars hrep hk) (by
    rw [hunits]
    push_cast
    field_simp)
  refine ⟨hrounding.unsigned, hfinite, ?_⟩
  rw [he, Binary64.value_finite, hunits]
  push_cast
  field_simp

/-- No declared bar is moved behind the end of the piece. -/
theorem IsExactScale.carries {declared : Nat} (h : IsExactScale scale declared bars)
    (hrep : Representable (bars * unitsPerOne)) (hdeclared : declared < 2 ^ 52) {bar : Nat}
    (hbar : bar ≤ declared) : Carries scale bar := by
  obtain ⟨x, hx, hwhole, hxv⟩ := Binary64.ofInt_eq_whole (hbar.trans_lt hdeclared)
  have hproduct := Binary64.isRounding_mul hwhole.1 h.unsigned hwhole.2 h.isFinite
  have hend := Binary64.isRounding_ofInt (Binary64.ofInt_natCast hrep)
  refine carries_of_isFinite hx (hproduct.isFinite_of_le hend ?_ rfl)
  rw [hxv, h.value_eq, ← mul_div_assoc, mul_comm, mul_div_assoc]
  refine mul_le_of_le_one_right (Nat.cast_nonneg bars) ?_
  exact div_le_one_of_le₀ (Nat.cast_le.mpr hbar) (Nat.cast_nonneg declared)

end Scale

section Segments

variable {rules : RuleSet} {bars : Nat}

theorem inReach_of_representable (hrep : Representable (bars * unitsPerOne)) : InReach bars := by
  have hlt := hrep.le
  have hpos := halfSpacing_pos
  rw [InReach, Int.natAbs_natCast]
  omega

theorem RuleSet.segments_of_placements {bars : Int}
    (h : ∃ placed, rules.placements bars = .ok placed) :
    ∃ segments, rules.segments bars = .ok segments := by
  obtain ⟨placed, hplaced⟩ := h
  exact ⟨_, bind_eq_ok.mpr ⟨placed, hplaced, rfl⟩⟩

theorem RuleSet.segments_of_portions (hne : rules.phases ≠ [])
    (h : ∀ phase ∈ rules.phases, phase.bars.isNone ∧ phase.share.isSome ∧
      ∀ share ∈ phase.share, IsPortion share.1 ∧ IsPortion share.2)
    (hbars : 1 ≤ bars) (hrep : Representable (bars * unitsPerOne)) :
    ∃ segments, rules.segments bars = .ok segments := by
  have hall : ∀ phase ∈ rules.phases, phase.share.isSome := fun phase hphase => (h phase hphase).2.1
  have hr : rules.InRange bars :=
    inRange_of_portions (fun phase hphase => ⟨(h phase hphase).1, (h phase hphase).2.2⟩) (by omega)
  obtain ⟨placed, hplaced, _⟩ := tile_eq_ok hr (Binary64.ofInt_natCast hrep) hall
  exact segments_of_placements ⟨placed, (placements_eq_tile hne hall bars).trans hplaced⟩

theorem RuleSet.segments_of_runsOn {k : Nat} (hstretch : rules.stretch = true) (hk : k ≤ 50)
    (hruns : RunsOn ((2 ^ k : Nat) : Int) 0 rules.phases) (hbars : 1 ≤ bars)
    (hrep : Representable (bars * unitsPerOne)) :
    ∃ segments, rules.segments bars = .ok segments := by
  have hpos := Nat.two_pow_pos k
  have hsmall : 2 ^ k ≤ 2 ^ 50 := Nat.pow_le_pow_right two_pos hk
  have hdeclared : 2 ^ k < 2 ^ 52 := hsmall.trans_lt (by decide)
  have hreach := inReach_of_representable hrep
  rw [InReach, Int.natAbs_natCast] at hreach
  obtain ⟨scale, hquotient, _⟩ := @Binary64.ofQuotient_eq_ok bars ((2 ^ k : Nat) : Int)
    (by omega) (by
      rw [Int.natAbs_natCast, Int.natAbs_natCast]
      exact hreach.trans_le (Nat.le_mul_of_pos_right _ hpos))
  have hscale : rules.scale bars = .ok scale := by
    rw [RuleSet.scale, if_pos hstretch, declaredEnd_eq hruns.declaredWithin
      (hruns.attained (by exact_mod_cast hpos)), hquotient]
  have hexact := isExactScale_representable hbars hrep hk hquotient
  have hplace : ∀ phase ∈ rules.phases, ∃ p, place bars scale phase = .ok p := by
    intro phase hphase
    obtain ⟨hshare, ⟨first, last⟩, hrange, hfirst, hlt, hlast⟩ := hruns.mem phase hphase
    dsimp only at hfirst hlt hlast
    obtain ⟨before, hbefore⟩ := Int.eq_ofNat_of_zero_le hfirst
    obtain ⟨stop, rfl⟩ := Int.eq_ofNat_of_zero_le (show 0 ≤ last by omega)
    refine place_of_claimed (claimedBars_declared hshare hrange ⟨inReach_of_le (by omega), ?_⟩
      ⟨inReach_of_le (by omega), ?_⟩)
    · rw [hbefore]
      exact hexact.carries hrep hdeclared (by omega)
    · exact hexact.carries hrep hdeclared (by omega)
  refine segments_of_placements ?_
  unfold placements
  split
  · rename_i hall
    -- Phases given in bars are not tiled, unless there are none.
    rw [Bool.and_eq_true, List.all_eq_true] at hall
    obtain ⟨phase, hphase⟩ := List.exists_mem_of_ne_nil rules.phases (by simpa using hall.1)
    have hshare := hall.2 phase hphase
    rw [(hruns.mem phase hphase).1] at hshare
    cases hshare
  · obtain ⟨placed, hplaced⟩ := exists_mapM_eq_ok hplace
    exact ⟨placed, bind_eq_ok.mpr ⟨scale, hscale, hplaced⟩⟩

theorem Template.segments_eq_ok {t : Template} (ht : t ∈ catalog) (hbars : 1 ≤ bars)
    (hrep : Representable (bars * unitsPerOne)) :
    ∃ segments, t.rules.segments bars = .ok segments := by
  rcases catalog_phases t ht with ⟨hne, hshares⟩ | ⟨hstretch, k, hk, hruns⟩
  · exact RuleSet.segments_of_portions (List.isEmpty_eq_false_iff.mp hne) hshares hbars hrep
  · have hsmall : k ≤ 50 := by
      have hall : ∀ k ∈ [4, 6], k ≤ 50 := by decide
      exact hall k hk
    exact RuleSet.segments_of_runsOn hstretch hsmall hruns hbars hrep

end Segments

end PatternLoom
