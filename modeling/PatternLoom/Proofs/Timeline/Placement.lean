import PatternLoom.Proofs.Order.Permutation
import PatternLoom.Proofs.Result
import PatternLoom.Proofs.Binary64.Range
import PatternLoom.Timeline

/-! Where phases are placed. Tiled, scaled and mixed phases all start behind the front of the
piece, and a range that starts in the piece ends in it. In a piece of ordinary size placing
fails only for a phase without a range. -/

namespace PatternLoom

/-- The range starts at the first bar or later; if it starts in the piece it ends there. -/
def Placement.Fits (bars : Int) (p : Placement) : Prop :=
  1 ≤ p.first ∧ (p.first ≤ bars → p.last ≤ bars)

theorem tileFrom_fits {bars first : Int} {phases : List Phase} {ps : List Placement}
    (h : tileFrom bars first phases = .ok ps) (hf : 1 ≤ first) : ∀ p ∈ ps, p.Fits bars := by
  fun_induction tileFrom bars first phases generalizing ps with
  | case1 =>
    cases h
    simp
  | case2 first phase =>
    cases h
    simpa [Placement.Fits] using hf
  | case3 first phase next rest ih =>
    simp only [bind_eq_ok, pure_eq_ok] at h
    obtain ⟨before, _, ps', hps, rfl⟩ := h
    rintro p (_ | ⟨_, hp⟩)
    · refine ⟨hf, ?_⟩
      dsimp only
      omega
    · exact ih before hps (by omega) p hp

theorem clampBar_bounds {bar bars k : Int} (h : clampBar bar bars = .ok k) (hb : 1 ≤ bars) :
    1 ≤ k ∧ k ≤ bars := by
  simp only [clampBar, bind_eq_ok, pure_eq_ok] at h
  obtain ⟨_, _, _, _, rfl⟩ := h
  omega

theorem place_fits {bars : Int} {scale : Binary64} {phase : Phase} {p : Placement}
    (h : place bars scale phase = .ok p) (hb : 1 ≤ bars) : p.Fits bars := by
  simp only [place, bind_eq_ok, pure_eq_ok] at h
  obtain ⟨⟨_, _⟩, _, _, hfirst, _, hlast, rfl⟩ := h
  exact ⟨(clampBar_bounds hfirst hb).1, fun _ => (clampBar_bounds hlast hb).2⟩

theorem RuleSet.placements_fit {rules : RuleSet} {bars : Int} {ps : List Placement}
    (h : rules.placements bars = .ok ps) (hb : 1 ≤ bars) : ∀ p ∈ ps, p.Fits bars := by
  unfold placements at h
  split at h
  · exact tileFrom_fits h le_rfl
  · rw [bind_eq_ok] at h
    obtain ⟨_, _, h⟩ := h
    intro p hp
    obtain ⟨_, _, hplace⟩ := exists_of_forall₂_right (mapM_eq_ok.mp h) hp
    exact place_fits hplace hb

/-- Neither bars nor shares say where the phase is. -/
def Phase.lacksRange (phase : Phase) : Bool := phase.share.isNone && phase.bars.isNone

/-- The numbers of a rule set are small enough for a piece of the given length: no declared bar
is beyond `2^50`, and no share times the length is infinite or no number. -/
structure RuleSet.InRange (rules : RuleSet) (bars : Int) : Prop where
  bars_le : ∀ phase ∈ rules.phases, ∀ range ∈ phase.bars,
    range.1.natAbs ≤ 2 ^ 50 ∧ range.2.natAbs ≤ 2 ^ 50
  shares_finite : ∀ phase ∈ rules.phases, ∀ share ∈ phase.share,
    ∀ length, Binary64.ofInt bars = .ok length →
      (share.1 * length).isFinite ∧ (share.2 * length).isFinite

/-- Bars that can be taken for numbers. -/
def InReach (bar : Int) : Prop := bar.natAbs * unitsPerOne < overflow

theorem inReach_of_le {bar : Int} (h : bar.natAbs ≤ 2 ^ 51) : InReach bar := by
  have hle := h.trans (show 2 ^ 51 ≤ 2 ^ 110 by decide)
  exact (Nat.mul_le_mul_right _ hle).trans_lt two_pow_mul_unitsPerOne_lt

theorem InReach.max {a b : Int} (ha : InReach a) (hb : InReach b) : InReach (max a b) := by
  rcases max_choice a b with h | h
  · exact h.symm ▸ ha
  · exact h.symm ▸ hb

theorem clampBar_eq_ok {bar : Int} (h : InReach bar) (bars : Int) :
    ∃ k, clampBar bar bars = .ok k := by
  obtain ⟨x, hx, hfin, _⟩ := Binary64.ofInt_eq_ok h
  obtain ⟨k, hk⟩ := Binary64.roundHalfUp_eq_ok hfin
  exact ⟨_, bind_eq_ok.mpr ⟨x, hx, bind_eq_ok.mpr ⟨k, hk, rfl⟩⟩⟩

theorem barsBefore_eq_ok {share length : Binary64} {bars : Int}
    (hl : Binary64.ofInt bars = .ok length) (hs : (share * length).isFinite) :
    ∃ k, barsBefore share bars = .ok k ∧ InReach k ∧ InReach (k + 1) := by
  obtain ⟨h₁, h₂⟩ := Binary64.natAbs_floor_add_one_lt hs
  exact ⟨_, bind_eq_ok.mpr ⟨length, hl, Binary64.floor_eq_ok hs⟩, h₁, h₂⟩

/-- A factor of at most `2^52` in either direction. -/
def ModestScale (scale : Binary64) : Prop :=
  scale.isFinite ∧ scale.units.natAbs ≤ 2 ^ 52 * unitsPerOne

/-- A scaled bar, and the one behind it, can be taken for numbers again. -/
def Carries (scale : Binary64) (bar : Int) : Prop :=
  ∃ x k, Binary64.ofInt bar = .ok x ∧ (x * scale).floor = .ok k ∧ InReach k ∧ InReach (k + 1)

theorem carries_of_isFinite {scale x : Binary64} {bar : Int} (hx : Binary64.ofInt bar = .ok x)
    (hfinite : (x * scale).isFinite) : Carries scale bar := by
  obtain ⟨h₁, h₂⟩ := Binary64.natAbs_floor_add_one_lt hfinite
  exact ⟨x, _, hx, Binary64.floor_eq_ok hfinite, h₁, h₂⟩

theorem ModestScale.carries {scale : Binary64} (hs : ModestScale scale) {bar : Int}
    (hb : bar.natAbs ≤ 2 ^ 51) : Carries scale bar := by
  obtain ⟨x, hx, hfin, hmag⟩ := Binary64.ofInt_eq_ok (inReach_of_le hb)
  have hx' : x.units.natAbs ≤ 2 ^ 53 * unitsPerOne := by
    have hpos := unitsPerOne_pos
    have hle := Nat.mul_le_mul_right unitsPerOne hb
    omega
  have hprod : (x * scale).isFinite := by
    rw [Binary64.isFinite_mul hfin hs.1]
    calc x.units.natAbs * scale.units.natAbs
        ≤ 2 ^ 53 * unitsPerOne * (2 ^ 52 * unitsPerOne) := Nat.mul_le_mul hx' hs.2
      _ = 2 ^ 105 * unitsPerOne * unitsPerOne := by ring
      _ ≤ 2 ^ 110 * unitsPerOne * unitsPerOne :=
          Nat.mul_le_mul_right _ (Nat.mul_le_mul_right _ (by decide))
      _ < overflow * unitsPerOne :=
          Nat.mul_lt_mul_of_pos_right two_pow_mul_unitsPerOne_lt unitsPerOne_pos
  exact carries_of_isFinite hx hprod

theorem declaredEnd_ne_zero {phases : List Phase} {bars : Int} (hb : 1 ≤ bars) :
    declaredEnd phases bars ≠ 0 := by
  unfold declaredEnd
  split
  · omega
  · dsimp only
    split <;> omega

theorem RuleSet.scale_eq_ok {rules : RuleSet} {bars : Int} (hb : 1 ≤ bars)
    (hmax : bars ≤ 2 ^ 50) : ∃ scale, rules.scale bars = .ok scale ∧ ModestScale scale := by
  unfold scale
  split
  · have hend : declaredEnd rules.phases bars ≠ 0 := declaredEnd_ne_zero hb
    have hnum : bars.natAbs * unitsPerOne ≤ 2 ^ 50 * unitsPerOne :=
      Nat.mul_le_mul_right _ (by omega)
    have hden := Int.natAbs_pos.2 hend
    have hlt : bars.natAbs * unitsPerOne < overflow * (declaredEnd rules.phases bars).natAbs :=
      calc bars.natAbs * unitsPerOne
          ≤ 2 ^ 110 * unitsPerOne := Nat.mul_le_mul_right _ (by omega)
        _ < overflow := two_pow_mul_unitsPerOne_lt
        _ ≤ overflow * (declaredEnd rules.phases bars).natAbs := Nat.le_mul_of_pos_right _ hden
    obtain ⟨x, hx, hfin, hmag⟩ := Binary64.ofQuotient_eq_ok hend hlt
    have hdiv := Nat.div_le_self (bars.natAbs * unitsPerOne) (declaredEnd rules.phases bars).natAbs
    have hpos := unitsPerOne_pos
    exact ⟨x, hx, hfin, by omega⟩
  · have hone : (1 : Binary64).isFinite ∧ (1 : Binary64).units.natAbs ≤ 2 ^ 52 * unitsPerOne := by
      decide +kernel
    exact ⟨1, rfl, hone⟩

theorem claimedBars_declared {phase : Phase} {first last bars : Int} {scale : Binary64}
    (hshare : phase.share = none) (hbars : phase.bars = some (first, last))
    (hfirst : InReach first ∧ Carries scale (first - 1)) (hlast : InReach last ∧ Carries scale last) :
    ∃ r, claimedBars phase bars scale = .ok r ∧ InReach r.1 ∧ InReach r.2 := by
  unfold claimedBars
  rw [hshare, hbars]
  dsimp only
  split
  · exact ⟨_, rfl, hfirst.1, hlast.1⟩
  · obtain ⟨x, k, hx, hk, _, hk'⟩ := hfirst.2
    obtain ⟨y, l, hy, hl, hl', _⟩ := hlast.2
    exact ⟨_, bind_eq_ok.mpr ⟨x, hx, bind_eq_ok.mpr ⟨k, hk, bind_eq_ok.mpr ⟨y, hy,
      bind_eq_ok.mpr ⟨l, hl, rfl⟩⟩⟩⟩, hk', hl'⟩

theorem claimedBars_eq_ok {rules : RuleSet} {bars : Int} {scale length : Binary64}
    (hr : rules.InRange bars) (hs : ModestScale scale) (hl : Binary64.ofInt bars = .ok length)
    {phase : Phase} (hp : phase ∈ rules.phases) (hlacks : phase.lacksRange = false) :
    ∃ r, claimedBars phase bars scale = .ok r ∧ InReach r.1 ∧ InReach r.2 := by
  have hbars := hr.bars_le phase hp
  have hshare := hr.shares_finite phase hp
  cases hps : phase.share with
  | some share =>
    obtain ⟨start, stop⟩ := share
    unfold claimedBars
    rw [hps]
    obtain ⟨hstart, hstop⟩ := hshare _ hps length hl
    obtain ⟨first, hfirst, _, hfirst'⟩ := barsBefore_eq_ok hl hstart
    obtain ⟨last, hlast, hlast', _⟩ := barsBefore_eq_ok hl hstop
    exact ⟨_, bind_eq_ok.mpr ⟨first, hfirst, bind_eq_ok.mpr ⟨last, hlast, rfl⟩⟩,
      hfirst', hfirst'.max hlast'⟩
  | none =>
    cases hpb : phase.bars with
    | none => simp [Phase.lacksRange, hps, hpb] at hlacks
    | some range =>
      obtain ⟨first, last⟩ := range
      obtain ⟨hfirst, hlast⟩ := hbars _ hpb
      exact claimedBars_declared hps hpb
        ⟨inReach_of_le (by omega), hs.carries (by omega)⟩
        ⟨inReach_of_le (by omega), hs.carries (by omega)⟩

theorem place_of_claimed {phase : Phase} {bars : Int} {scale : Binary64}
    (h : ∃ r, claimedBars phase bars scale = .ok r ∧ InReach r.1 ∧ InReach r.2) :
    ∃ p, place bars scale phase = .ok p := by
  obtain ⟨r, hclaimed, h₁, h₂⟩ := h
  obtain ⟨first, hfirst⟩ := clampBar_eq_ok h₁ bars
  obtain ⟨last, hlast⟩ := clampBar_eq_ok h₂ bars
  exact ⟨_, bind_eq_ok.mpr ⟨r, hclaimed, bind_eq_ok.mpr ⟨first, hfirst,
    bind_eq_ok.mpr ⟨last, hlast, rfl⟩⟩⟩⟩

theorem place_eq_ok {rules : RuleSet} {bars : Int} {scale length : Binary64}
    (hr : rules.InRange bars) (hs : ModestScale scale) (hl : Binary64.ofInt bars = .ok length)
    {phase : Phase} (hp : phase ∈ rules.phases) (hlacks : phase.lacksRange = false) :
    ∃ p, place bars scale phase = .ok p :=
  place_of_claimed (claimedBars_eq_ok hr hs hl hp hlacks)

theorem place_eq_error {phase : Phase} (h : phase.lacksRange) (bars : Int) (scale : Binary64) :
    place bars scale phase = .error (.phaseWithoutRange phase.id) := by
  simp only [Phase.lacksRange, Bool.and_eq_true, Option.isNone_iff_eq_none] at h
  refine bind_eq_error.mpr (.inl ?_)
  simp only [claimedBars, h]

theorem tileFrom_phases {bars first : Int} {phases : List Phase} {ps : List Placement}
    (h : tileFrom bars first phases = .ok ps) : ps.map Placement.phase = phases := by
  fun_induction tileFrom bars first phases generalizing ps with
  | case1 =>
    cases h
    rfl
  | case2 first phase =>
    cases h
    rfl
  | case3 first phase next rest ih =>
    simp only [bind_eq_ok, pure_eq_ok] at h
    obtain ⟨before, _, ps', hps, rfl⟩ := h
    rw [List.map_cons, ih before hps]

theorem tileFrom_eq_ok {bars : Int} {phases : List Phase}
    (h : ∀ phase ∈ phases.tail, ∃ k, barsBefore ((phase.share.map (·.1)).getD 1) bars = .ok k)
    (first : Int) : ∃ ps, tileFrom bars first phases = .ok ps := by
  fun_induction tileFrom bars first phases with
  | case1 => exact ⟨_, rfl⟩
  | case2 first phase => exact ⟨_, rfl⟩
  | case3 first phase next rest ih =>
    obtain ⟨⟨before, hbefore⟩, hrest⟩ := List.forall_mem_cons.mp h
    obtain ⟨ps, hps⟩ := ih before hrest
    exact ⟨_, bind_eq_ok.mpr ⟨before, hbefore, bind_eq_ok.mpr ⟨ps, hps, rfl⟩⟩⟩

theorem mapM_place_phases {bars : Int} {scale : Binary64} {phases : List Phase}
    {ps : List Placement} (h : phases.mapM (place bars scale) = .ok ps) :
    ps.map Placement.phase = phases := by
  rw [map_eq_of_forall₂ (mapM_eq_ok.mp h) fun phase p hp => ?_, List.map_id]
  simp only [place, bind_eq_ok, pure_eq_ok] at hp
  obtain ⟨_, _, _, _, _, _, rfl⟩ := hp
  rfl

/-- Each phase is placed once. -/
theorem RuleSet.placements_perm {rules : RuleSet} {bars : Int} {ps : List Placement}
    (h : rules.placements bars = .ok ps) : (ps.map Placement.phase).Perm rules.phases := by
  unfold placements at h
  split at h
  · rw [tileFrom_phases h]
    exact sortBy_perm _ _ _
  · obtain ⟨_, _, h⟩ := bind_eq_ok.mp h
    rw [mapM_place_phases h]

/-- Phases that all give shares are tiled in the order of their starts. -/
theorem tile_eq_ok {rules : RuleSet} {bars : Int} {length : Binary64} (hr : rules.InRange bars)
    (hl : Binary64.ofInt bars = .ok length) (hall : ∀ phase ∈ rules.phases, phase.share.isSome) :
    ∃ ps, tile rules.phases bars = .ok ps ∧ (ps.map Placement.phase).Perm rules.phases := by
  have hstart : ∀ phase ∈ rules.phases, ∃ start, phase.share.map (·.1) = some start ∧
      (start * length).isFinite := by
    intro phase hp
    obtain ⟨share, hshare⟩ := Option.isSome_iff_exists.mp (hall phase hp)
    exact ⟨share.1, by rw [hshare]; rfl, (hr.shares_finite phase hp share hshare length hl).1⟩
  have hsort : sortBy startsBefore (fun p => !(startShare p).isNan) rules.phases =
      rules.phases.mergeSort fun p q => !startsBefore q p := by
    refine sortBy_eq_mergeSort fun phase hp => ?_
    obtain ⟨start, hs, hfin⟩ := hstart phase hp
    have hfinite := Binary64.isFinite_of_mul hfin
    rw [startShare, hs]
    cases start with
    | nan => simp [Binary64.isFinite] at hfinite
    | infinity _ => rfl
    | finite _ _ _ => rfl
  have hperm := List.mergeSort_perm rules.phases fun p q => !startsBefore q p
  obtain ⟨ps, hps⟩ := tileFrom_eq_ok (fun phase hp => by
    obtain ⟨start, hs, hfin⟩ := hstart phase (hperm.mem_iff.mp (List.mem_of_mem_tail hp))
    obtain ⟨k, hk, _⟩ := barsBefore_eq_ok hl hfin
    rw [hs]
    exact ⟨k, hk⟩) 1
  refine ⟨ps, ?_, (tileFrom_phases hps).symm ▸ hperm⟩
  rw [tile, hsort, hps]

theorem RuleSet.placements_eq_tile {rules : RuleSet} (hne : rules.phases ≠ [])
    (hshares : ∀ phase ∈ rules.phases, phase.share.isSome) (bars : Int) :
    rules.placements bars = tile rules.phases bars := by
  have htiled : (!rules.phases.isEmpty && rules.phases.all (·.share.isSome)) = true := by
    simpa [hne] using hshares
  rw [placements, if_pos htiled]

theorem RuleSet.placements_eq_error {rules : RuleSet} {bars : Int} (hr : rules.InRange bars)
    (hb : 1 ≤ bars) (hmax : bars ≤ 2 ^ 50) {phase : Phase}
    (h : rules.phases.find? Phase.lacksRange = some phase) :
    rules.placements bars = .error (.phaseWithoutRange phase.id) := by
  obtain ⟨length, hl, _⟩ := Binary64.ofInt_eq_ok (inReach_of_le (show bars.natAbs ≤ 2 ^ 51 by omega))
  obtain ⟨scale, hscale, hmodest⟩ := rules.scale_eq_ok hb hmax
  obtain ⟨hlacks, before, after, hphases, hbefore⟩ := List.find?_eq_some_iff_append.mp h
  have hnot : ¬ (!rules.phases.isEmpty && rules.phases.all (·.share.isSome)) = true := by
    intro hall
    rw [Bool.and_eq_true, List.all_eq_true] at hall
    have hsome := hall.2 phase (by simp [hphases])
    simp [Phase.lacksRange, Option.isSome_iff_ne_none] at hlacks hsome
    exact hsome hlacks.1
  rw [placements, if_neg hnot, hscale]
  refine mapM_eq_error.mpr ⟨before, phase, after, hphases, ?_, place_eq_error hlacks bars scale⟩
  intro p hp
  exact place_eq_ok hr hmodest hl (by simp [hphases, hp]) (by simpa using hbefore p hp)

theorem RuleSet.placements_eq_ok {rules : RuleSet} {bars : Int} (hr : rules.InRange bars)
    (hb : 1 ≤ bars) (hmax : bars ≤ 2 ^ 50) (h : rules.phases.find? Phase.lacksRange = none) :
    ∃ ps, rules.placements bars = .ok ps ∧ (ps.map Placement.phase).Perm rules.phases := by
  obtain ⟨length, hl, _⟩ := Binary64.ofInt_eq_ok (inReach_of_le (show bars.natAbs ≤ 2 ^ 51 by omega))
  obtain ⟨scale, hscale, hmodest⟩ := rules.scale_eq_ok hb hmax
  unfold placements
  split
  · rename_i hall
    rw [Bool.and_eq_true, List.all_eq_true] at hall
    exact tile_eq_ok hr hl hall.2
  · have hlacks : ∀ phase ∈ rules.phases, phase.lacksRange = false := by
      simpa using List.find?_eq_none.mp h
    obtain ⟨ps, hps⟩ := exists_mapM_eq_ok fun phase hp =>
      place_eq_ok hr hmodest hl hp (hlacks phase hp)
    exact ⟨ps, bind_eq_ok.mpr ⟨scale, hscale, hps⟩, mapM_place_phases hps ▸ List.Perm.refl _⟩

end PatternLoom
