import PatternLoom.Proofs.Binary64.Scaling
import PatternLoom.Proofs.Timeline.Placement

/-! Phases given in bars, moved by a scale. The end of a bar and the start of the next one come from
the same product, and rounded products keep their order, so a phase claims the bars between two ends
and none beyond the end of the last bar. -/

namespace PatternLoom

section Declared

/-- The phase is given in bars, and none of them is behind the bar `stop`. -/
def Phase.DeclaredWithin (stop : Int) (phase : Phase) : Prop :=
  phase.share = none ∧ ∃ range ∈ phase.bars, 1 ≤ range.1 ∧ range.1 ≤ range.2 ∧ range.2 ≤ stop

/-- The declared length is the largest of the ends. -/
theorem declaredEnd_eq {phases : List Phase} {stop : Int}
    (hwithin : ∀ phase ∈ phases, phase.DeclaredWithin stop)
    (hattained : ∃ phase ∈ phases, ∃ range ∈ phase.bars, range.2 = stop) (bars : Int) :
    declaredEnd phases bars = stop := by
  obtain ⟨phase, hphase, range, hrange, rfl⟩ := hattained
  have hmem : range.2 ∈ (phases.filterMap Phase.bars).map (·.2) :=
    List.mem_map_of_mem (List.mem_filterMap.mpr ⟨phase, hphase, hrange⟩)
  have hle : ∀ last ∈ (phases.filterMap Phase.bars).map (·.2), last ≤ range.2 := by
    simp only [List.forall_mem_map, List.mem_filterMap]
    rintro other ⟨q, hq, hother⟩
    obtain ⟨-, own, hown, -, -, hlast⟩ := hwithin q hq
    obtain rfl := Option.some.inj (hother.symm.trans hown)
    exact hlast
  have hpos : range.2 ≠ 0 := by
    obtain ⟨-, own, hown, hfirst, hlast, -⟩ := hwithin phase hphase
    obtain rfl := Option.some.inj (hrange.symm.trans hown)
    omega
  unfold declaredEnd
  generalize (phases.filterMap Phase.bars).map (·.2) = lasts at hmem hle ⊢
  cases lasts with
  | nil => cases hmem
  | cons last lasts =>
    have hmax : lasts.foldl max last = range.2 :=
      Option.some.inj ((@List.max?_cons' _ last _ lasts).symm.trans
        (List.max?_eq_some_iff.mpr ⟨hmem, hle⟩))
    simp only [hmax, if_neg hpos]

end Declared

section Ends

/-- The end of a declared bar when it is scaled. -/
def scaledEnd (scale : Binary64) (bar : Int) : Result Int := do
  ((← Binary64.ofInt bar) * scale).floor

variable {scale : Binary64}

theorem scaledEnd_of_le (hscale : scale.Unsigned ∧ scale.isFinite) {bar stop : Nat} {last : Int}
    (hlast : scaledEnd scale stop = .ok last) (hstop : stop < 2 ^ 52) (hle : bar ≤ stop) :
    ∃ reached, scaledEnd scale bar = .ok reached ∧ 0 ≤ reached ∧ reached ≤ last := by
  obtain ⟨x, hx, hwhole, hvalue⟩ := Binary64.ofInt_eq_whole (hle.trans_lt hstop)
  obtain ⟨y, hy, hwhole', hvalue'⟩ := Binary64.ofInt_eq_whole hstop
  obtain ⟨y', hy', hfloor'⟩ := bind_eq_ok.mp hlast
  obtain rfl := Except.ok.inj (hy.symm.trans hy')
  have hproduct := Binary64.isRounding_mul hwhole.1 hscale.1 hwhole.2 hscale.2
  have hproduct' := Binary64.isRounding_mul hwhole'.1 hscale.1 hwhole'.2 hscale.2
  have hfin' := Binary64.isFinite_of_floor hfloor'
  have hvalues : x.value * scale.value ≤ y.value * scale.value := by
    rw [hvalue, hvalue']
    exact mul_le_mul_of_nonneg_right (Nat.cast_le.mpr hle) hscale.1.value_nonneg
  have hfin := hproduct.isFinite_of_le hproduct' hvalues hfin'
  have hmono := hproduct.mono hproduct' hfin hfin' hvalues
  have hfloor := Binary64.floor_eq_ok hfin
  refine ⟨_, bind_eq_ok.mpr ⟨x, hx, hfloor⟩, ?_, ?_⟩
  · rw [Binary64.le_floor_iff hfloor, Int.cast_zero]
    exact hproduct.unsigned.value_nonneg
  · rw [Binary64.le_floor_iff hfloor']
    exact (Binary64.floor_le_value hfloor).1.trans hmono

/-- Where the declared bars end in the piece. -/
structure Scales (scale : Binary64) (declared bars : Int) (reach : Int → Int) : Prop where
  scaled : ∀ bar, 0 ≤ bar → bar ≤ declared → scaledEnd scale bar = .ok (reach bar)
  within : ∀ bar, 0 ≤ bar → bar ≤ declared → 0 ≤ reach bar ∧ reach bar ≤ bars
  mono : ∀ bar stop, 0 ≤ bar → bar ≤ stop → stop ≤ declared → reach bar ≤ reach stop
  unscaled : scale.equal 1 = true → ∀ bar, 0 ≤ bar → bar ≤ declared → reach bar = bar

theorem exists_scales (hscale : scale.Unsigned ∧ scale.isFinite) {declared : Nat} {last bars : Int}
    (hlast : scaledEnd scale declared = .ok last) (hdeclared : declared < 2 ^ 52)
    (hle : last ≤ bars) : ∃ reach, Scales scale declared bars reach ∧ reach declared = last := by
  have hreach : ∀ {bar k : Int}, scaledEnd scale bar = .ok k →
      (scaledEnd scale bar).toOption.getD 0 = k := by
    intro bar k hk
    rw [hk]
    rfl
  refine ⟨fun bar => (scaledEnd scale bar).toOption.getD 0, ⟨?_, ?_, ?_, ?_⟩, hreach hlast⟩
  · intro bar hlow hhigh
    obtain ⟨n, rfl⟩ := Int.eq_ofNat_of_zero_le hlow
    obtain ⟨k, hk, _⟩ := scaledEnd_of_le hscale hlast hdeclared (Int.ofNat_le.mp hhigh)
    rw [hk]
    rfl
  · intro bar hlow hhigh
    obtain ⟨n, rfl⟩ := Int.eq_ofNat_of_zero_le hlow
    obtain ⟨k, hk, hnonneg, hk'⟩ := scaledEnd_of_le hscale hlast hdeclared (Int.ofNat_le.mp hhigh)
    rw [hreach hk]
    exact ⟨hnonneg, hk'.trans hle⟩
  · intro bar stop hlow hbar hhigh
    obtain ⟨n, rfl⟩ := Int.eq_ofNat_of_zero_le hlow
    obtain ⟨m, rfl⟩ := Int.eq_ofNat_of_zero_le (hlow.trans hbar)
    have hm := Int.ofNat_le.mp hhigh
    obtain ⟨l, hl, _⟩ := scaledEnd_of_le hscale hlast hdeclared hm
    obtain ⟨k, hk, _, hkl⟩ :=
      scaledEnd_of_le hscale hl (hm.trans_lt hdeclared) (Int.ofNat_le.mp hbar)
    rwa [hreach hk, hreach hl]
  · intro hone bar hlow hhigh
    obtain ⟨n, rfl⟩ := Int.eq_ofNat_of_zero_le hlow
    have hn := (Int.ofNat_le.mp hhigh).trans_lt hdeclared
    obtain ⟨x, hx, hwhole, hvalue⟩ := Binary64.ofInt_eq_whole hn
    have hproduct := Binary64.isRounding_mul hwhole.1 hscale.1 hwhole.2 hscale.2
    rw [(Binary64.equal_iff_value hscale.2 (by decide +kernel)).mp hone, Binary64.value_one, mul_one,
      hvalue] at hproduct
    exact hreach (bind_eq_ok.mpr ⟨x, hx, hproduct.floor_eq (hn.le.trans (by decide))⟩)

end Ends

section Places

variable {scale : Binary64} {declared bars : Int} {reach : Int → Int}

theorem clampBar_of_lt {bar : Int} (hlow : 0 ≤ bar) (hhigh : bar < 2 ^ 52) (bars : Int) :
    clampBar bar bars = .ok (max 1 (min bar bars)) := by
  obtain ⟨n, rfl⟩ := Int.eq_ofNat_of_zero_le hlow
  obtain ⟨x, hx, _, hround⟩ := Binary64.settled_of_lt (n := n) (by exact_mod_cast hhigh)
  exact bind_eq_ok.mpr ⟨x, hx, bind_eq_ok.mpr ⟨n, hround, rfl⟩⟩

/-- A phase claims the bars behind the end of the bar before it, up to the end of its last. -/
theorem Scales.claimedBars_eq (h : Scales scale declared bars reach) {phase : Phase}
    {range : Int × Int} (hshare : phase.share = none) (hrange : phase.bars = some range)
    (hfirst : 0 ≤ range.1 - 1) (hle : range.1 - 1 ≤ range.2) (hlast : range.2 ≤ declared) :
    claimedBars phase bars scale = .ok (reach (range.1 - 1) + 1, reach range.2) := by
  obtain ⟨x, hx, hfloor⟩ := bind_eq_ok.mp (h.scaled _ hfirst (hle.trans hlast))
  obtain ⟨y, hy, hfloor'⟩ := bind_eq_ok.mp (h.scaled _ (hfirst.trans hle) hlast)
  simp only [claimedBars, hshare, hrange]
  by_cases hone : scale.equal 1 = true
  · rw [if_pos hone, h.unscaled hone _ hfirst (hle.trans hlast),
      h.unscaled hone _ (hfirst.trans hle) hlast, Int.sub_add_cancel]
    rfl
  · rw [if_neg hone]
    exact bind_eq_ok.mpr ⟨x, hx, bind_eq_ok.mpr ⟨_, hfloor,
      bind_eq_ok.mpr ⟨y, hy, bind_eq_ok.mpr ⟨_, hfloor', rfl⟩⟩⟩⟩

/-- A phase with the bars it is moved to. -/
def movedTo (reach : Int → Int) (bars : Int) (phase : Phase) (range : Int × Int) : Placement :=
  ⟨phase, max 1 (min (reach (range.1 - 1) + 1) bars), max 1 (min (reach range.2) bars)⟩

/-- The phase is placed on the bars that its own are moved to. -/
def Moved (reach : Int → Int) (bars : Int) (phase : Phase) (p : Placement) : Prop :=
  ∃ range ∈ phase.bars, p = movedTo reach bars phase range

theorem Moved.phase_eq {phase : Phase} {p : Placement} (h : Moved reach bars phase p) :
    p.phase = phase := by
  obtain ⟨_, _, rfl⟩ := h
  rfl

theorem Scales.place_eq (h : Scales scale declared bars reach) (hbars : bars ≤ 2 ^ 50)
    {phase : Phase} {range : Int × Int} (hshare : phase.share = none)
    (hrange : phase.bars = some range) (hfirst : 0 ≤ range.1 - 1) (hle : range.1 - 1 ≤ range.2)
    (hlast : range.2 ≤ declared) :
    place bars scale phase = .ok (movedTo reach bars phase range) := by
  obtain ⟨hlow, hhigh⟩ := h.within _ hfirst (hle.trans hlast)
  obtain ⟨hlow', hhigh'⟩ := h.within _ (hfirst.trans hle) hlast
  exact bind_eq_ok.mpr ⟨_, h.claimedBars_eq hshare hrange hfirst hle hlast,
    bind_eq_ok.mpr ⟨_, clampBar_of_lt (by omega) (by omega) bars,
      bind_eq_ok.mpr ⟨_, clampBar_of_lt hlow' (by omega) bars, rfl⟩⟩⟩

theorem Scales.placements_eq_ok (h : Scales scale declared bars reach) {rules : RuleSet}
    (hscale : rules.scale bars = .ok scale) (hbars : bars ≤ 2 ^ 50)
    (hwithin : ∀ phase ∈ rules.phases, phase.DeclaredWithin declared) :
    ∃ placed, rules.placements bars = .ok placed ∧
      List.Forall₂ (Moved reach bars) rules.phases placed := by
  have hplace : ∀ phase ∈ rules.phases, ∃ p, place bars scale phase = .ok p ∧
      Moved reach bars phase p := by
    intro phase hphase
    obtain ⟨hshare, range, hrange, hfirst, hle, hlast⟩ := hwithin phase hphase
    exact ⟨_, h.place_eq hbars hshare hrange (by omega) (by omega) hlast, range, hrange, rfl⟩
  obtain ⟨placed, hplaced⟩ := exists_forall₂_of_forall hplace
  have huntiled : ¬ (!rules.phases.isEmpty && rules.phases.all (·.share.isSome)) = true := by
    intro hall
    rw [Bool.and_eq_true, List.all_eq_true] at hall
    obtain ⟨phase, hphase⟩ := List.exists_mem_of_ne_nil rules.phases (by simpa using hall.1)
    have hshare := hall.2 phase hphase
    rw [(hwithin phase hphase).1] at hshare
    cases hshare
  refine ⟨placed, ?_, hplaced.imp fun _ _ => And.right⟩
  rw [RuleSet.placements, if_neg huntiled]
  exact bind_eq_ok.mpr ⟨scale, hscale, mapM_eq_ok.mpr (hplaced.imp fun _ _ => And.left)⟩

/-- No phase is placed behind the end of the last declared bar, and each that has this bar ends
there. -/
theorem Scales.placed_ends {phases : List Phase} {placed : List Placement}
    (h : Scales scale declared bars reach) (hb : 1 ≤ bars)
    (hwithin : ∀ phase ∈ phases, phase.DeclaredWithin declared)
    (hmoved : List.Forall₂ (Moved reach bars) phases placed) :
    ∀ p ∈ placed, p.first ≤ bars ∧ p.last ≤ max 1 (reach declared) ∧
      ∀ range ∈ p.phase.bars, range.2 = declared → p.last = max 1 (reach declared) := by
  intro p hp
  obtain ⟨phase, hphase, range, hrange, rfl⟩ := exists_of_forall₂_right hmoved hp
  obtain ⟨-, own, hown, hfirst, hle, hlast⟩ := hwithin phase hphase
  obtain rfl := Option.some.inj (hrange.symm.trans hown)
  have hpast := (h.within range.2 (by omega) hlast).2
  have hmono := h.mono range.2 declared (by omega) hlast le_rfl
  unfold movedTo
  refine ⟨by dsimp only; omega, by dsimp only; omega, fun other hother hstop => ?_⟩
  obtain rfl := Option.some.inj (hrange.symm.trans hother)
  rw [hstop] at hpast ⊢
  rw [min_eq_left hpast]

end Places

end PatternLoom
