import PatternLoom.Proofs.Binary64.Number
import PatternLoom.Proofs.Binary64.Order
import PatternLoom.Proofs.Order.Stable
import PatternLoom.Proofs.Timeline.Cover

/-! Phases that all give shares of the piece. Each one runs to the start of the next and has a bar
even if that starts no later, so where phases crowd they run past the piece. Laid end to end they are
in order already, and the sweep leaves out just those behind the last bar. -/

namespace PatternLoom

section Starts

variable {phases : List Phase}

/-- Start share and id, which order phases in this turn. -/
def startKey (phase : Phase) : ℚ ×ₗ String := toLex ((startShare phase).value, phase.id)

theorem stablySorted_starts (h : ∀ phase ∈ phases, (startShare phase).isFinite) :
    StablySortedBy startKey phases (sortBy startsBefore (fun p => !(startShare p).isNan) phases) := by
  have hplaced : ∀ phase ∈ phases, (!(startShare phase).isNan) = true := by
    intro phase hphase
    rw [Binary64.isNan_of_isFinite (h phase hphase)]
    rfl
  rw [sortBy_eq_mergeSort hplaced]
  exact stablySortedBy_mergeSort fun p hp q hq => Binary64.not_before_eq (h p hp) (h q hq)

end Starts

section Laying

variable {bars first : Int} {phases : List Phase} {ps : List Placement}

theorem tileFrom_ascending (h : tileFrom bars first phases = .ok ps) :
    (∀ p ∈ ps, first ≤ p.first) ∧ ps.Pairwise fun p q => p.first < q.first := by
  fun_induction tileFrom bars first phases generalizing ps with
  | case1 =>
    cases h
    simp
  | case2 first phase =>
    cases h
    simp
  | case3 first phase next rest ih =>
    simp only [bind_eq_ok, pure_eq_ok] at h
    obtain ⟨before, _, ps', hps, rfl⟩ := h
    obtain ⟨hfirst, hascending⟩ := ih before hps
    refine ⟨List.forall_mem_cons.mpr ⟨le_rfl, fun p hp => ?_⟩,
      List.pairwise_cons.mpr ⟨fun p hp => ?_, hascending⟩⟩
    · have hbehind := hfirst p hp
      omega
    · have hbehind := hfirst p hp
      dsimp only
      omega

theorem Placement.inOrder_of_ascending (h : ps.Pairwise fun p q => p.first < q.first) :
    inOrder ps = ps := by
  refine List.mergeSort_of_pairwise (h.imp fun {p q} hlt => ?_)
  rw [precedes, if_pos hlt.ne', decide_eq_false hlt.not_gt]
  rfl

theorem barsBefore_eq_error {share length : Binary64} (hlength : Binary64.ofInt bars = .ok length)
    (hshare : share.isFinite) (h : ¬ (share * length).isFinite) :
    barsBefore share bars = .error .unbounded := by
  have hnan := Binary64.isNan_mul hshare (Binary64.isFinite_of_ofInt hlength)
  refine bind_eq_error.mpr (.inr ⟨length, hlength, ?_⟩)
  cases hproduct : share * length with
  | nan =>
    rw [hproduct] at hnan
    cases hnan
  | infinity _ => rfl
  | finite _ _ _ =>
    rw [hproduct] at h
    exact absurd rfl h

theorem getD_share {phase : Phase} (h : phase.share.isSome) :
    (phase.share.map (·.1)).getD 1 = startShare phase := by
  obtain ⟨share, hshare⟩ := Option.isSome_iff_exists.mp h
  rw [startShare, hshare, Option.map_some, Option.getD_some, Option.getD_some]

/-- Laying tiles fails with the first start that is not in reach. -/
theorem tileFrom_eq_error {length : Binary64} (hlength : Binary64.ofInt bars = .ok length)
    (hshares : ∀ phase ∈ phases, phase.share.isSome ∧ (startShare phase).isFinite)
    (h : ∃ phase ∈ phases.tail, ¬ (startShare phase * length).isFinite) (first : Int) :
    tileFrom bars first phases = .error .unbounded := by
  fun_induction tileFrom bars first phases with
  | case1 => simp at h
  | case2 first phase => simp at h
  | case3 first phase next rest ih =>
    obtain ⟨_, hrest⟩ := List.forall_mem_cons.mp hshares
    obtain ⟨hshare, hfinite⟩ := hrest next List.mem_cons_self
    rw [getD_share hshare]
    by_cases hnext : (startShare next * length).isFinite
    · obtain ⟨before, hbefore, _⟩ := barsBefore_eq_ok hlength hnext
      have hlater : ∃ phase ∈ rest, ¬ (startShare phase * length).isFinite := by
        obtain ⟨other, hother, hproduct⟩ := h
        rcases List.mem_cons.mp hother with rfl | hother
        · exact absurd hnext hproduct
        · exact ⟨other, hother, hproduct⟩
      exact bind_eq_error.mpr (.inr ⟨before, hbefore,
        bind_eq_error.mpr (.inl (ih before hrest hlater))⟩)
    · exact bind_eq_error.mpr (.inl (barsBefore_eq_error hlength hfinite hnext))

end Laying

section Tiles

variable {bars first : Int} {index : Nat} {phases : List Phase} {ps : List Placement}
  {segments : List Segment}

/-- Segments of the first few of some phases in their order. Each but the last runs to the start of
the phase behind it, and has one bar at least. -/
structure Tiles (bars : Int) (phases : List Phase) (segments : List Segment) : Prop where
  phases_eq : segments.map Segment.phase = (phases.take segments.length).map some
  last_eq : ∀ i s next, segments[i]? = some s → i + 1 < segments.length →
    phases[i + 1]? = some next → ∃ before, barsBefore (startShare next) bars = .ok before ∧
      s.last = max s.first (min bars before)

theorem Tiles.no_gap (h : Tiles bars phases segments) : ∀ s ∈ segments, s.isGap = false := by
  intro s hs
  have hphase := List.mem_map_of_mem (f := Segment.phase) hs
  rw [h.phases_eq] at hphase
  obtain ⟨phase, _, hphase⟩ := List.mem_map.mp hphase
  rw [Segment.isGap, ← hphase]
  rfl

theorem tiles_nil (bars : Int) (phases : List Phase) : Tiles bars phases [] where
  phases_eq := rfl
  last_eq := by simp

theorem Tiles.cons {s : Segment} {phase next : Phase} (h : Tiles bars (next :: phases) segments)
    (hphase : s.phase = some phase) {before : Int}
    (hbefore : barsBefore (startShare next) bars = .ok before)
    (hlast : s.last = max s.first (min bars before)) :
    Tiles bars (phase :: next :: phases) (s :: segments) where
  phases_eq := by
    rw [List.map_cons, h.phases_eq, hphase, List.length_cons, List.take_succ_cons, List.map_cons]
  last_eq := by
    intro i t other hi hlength hother
    cases i with
    | zero =>
      obtain rfl := Option.some.inj hi
      obtain rfl := Option.some.inj hother
      exact ⟨before, hbefore, hlast⟩
    | succ i => exact h.last_eq i t other hi (by simpa using hlength) hother

theorem cover_tileFrom (h : tileFrom bars first phases = .ok ps) (hne : phases ≠ [])
    (hshares : ∀ phase ∈ phases, phase.share.isSome) :
    Tiles bars phases (cover bars first index ps) := by
  fun_induction tileFrom bars first phases generalizing ps index with
  | case1 => exact absurd rfl hne
  | case2 first phase =>
    cases h
    rcases lt_or_ge bars first with hpast | hfirst
    · rw [cover_of_past hpast]
      exact tiles_nil bars [phase]
    · have hstart : (⟨phase, first, bars⟩ : Placement).first = first := rfl
      rw [cover_cons_of_start hstart hfirst hfirst, cover_of_past (Int.lt_succ bars)]
      exact ⟨rfl, by simp⟩
  | case3 first phase next rest ih =>
    simp only [bind_eq_ok, pure_eq_ok] at h
    obtain ⟨before, hbefore, ps', hps, rfl⟩ := h
    obtain ⟨_, hrest⟩ := List.forall_mem_cons.mp hshares
    -- Tiles that have run past the piece are dropped, and all behind them as well.
    rcases lt_or_ge bars first with hpast | hfirst
    · rw [cover_of_past hpast]
      exact tiles_nil bars (phase :: next :: rest)
    · have hstart : (⟨phase, first, max first (min bars (max first (before + 1) - 1))⟩ :
          Placement).first = first := rfl
      have htiles := @ih before (index + 1) ps' hps (List.cons_ne_nil _ _) hrest
      rw [getD_share (hrest next List.mem_cons_self)] at hbefore
      rw [cover_cons_of_start hstart (le_max_left _ _) hfirst]
      refine htiles.cons rfl hbefore ?_
      dsimp only
      omega

theorem tileFrom_segments (h : tileFrom bars 1 phases = .ok ps) (hne : phases ≠ [])
    (hshares : ∀ phase ∈ phases, phase.share.isSome) (hb : 1 ≤ bars) :
    IsCover bars (cover bars 1 0 ps) ∧ Tiles bars phases (cover bars 1 0 ps) := by
  have hcovers : Covers bars 1 0 (cover bars 1 0 ps) :=
    covers_cover (tileFrom_fits h le_rfl) (by omega)
  exact ⟨hcovers.isCover hb, cover_tileFrom h hne hshares⟩

end Tiles

section Segments

variable {rules : RuleSet} {bars : Int}

/-- Phases that all give shares of the piece fill it in the order of their starts. The whole bars up
to a start have to be finite, but for the first phase, whose start nothing reads. -/
theorem RuleSet.segments_tiled (hne : rules.phases ≠ [])
    (hshares : ∀ phase ∈ rules.phases, phase.share.isSome ∧ (startShare phase).isFinite)
    (hb : 1 ≤ bars) (hmax : bars ≤ 2 ^ 50) :
    ∃ ordered length, StablySortedBy startKey rules.phases ordered ∧
      Binary64.ofInt bars = .ok length ∧
      ((∀ phase ∈ ordered.tail, (startShare phase * length).isFinite) →
        ∃ segments, rules.segments bars = .ok segments ∧ IsCover bars segments ∧
          (∀ s ∈ segments, s.isGap = false) ∧ Tiles bars ordered segments) ∧
      ((∃ phase ∈ ordered.tail, ¬ (startShare phase * length).isFinite) →
        rules.segments bars = .error .unbounded) := by
  obtain ⟨length, hlength, _⟩ :=
    Binary64.ofInt_eq_ok (inReach_of_le (show bars.natAbs ≤ 2 ^ 51 by omega))
  have hsorted := stablySorted_starts fun phase hphase => (hshares phase hphase).2
  have hplaced := placements_eq_tile hne (fun phase hphase => (hshares phase hphase).1) bars
  rw [tile] at hplaced
  generalize sortBy startsBefore (fun p => !(startShare p).isNan) rules.phases = ordered
    at hsorted hplaced
  have hshares' : ∀ phase ∈ ordered, phase.share.isSome ∧ (startShare phase).isFinite :=
    fun phase hphase => hshares phase (hsorted.perm.mem_iff.mp hphase)
  have hne' : ordered ≠ [] := by
    rintro rfl
    exact hne hsorted.perm.symm.eq_nil
  refine ⟨ordered, length, hsorted, hlength, fun hfinite => ?_, fun hinfinite => ?_⟩
  · have hbefore : ∀ phase ∈ ordered.tail,
        ∃ k, barsBefore ((phase.share.map (·.1)).getD 1) bars = .ok k := by
      intro phase hphase
      rw [getD_share (hshares' phase (List.mem_of_mem_tail hphase)).1]
      exact (barsBefore_eq_ok hlength (hfinite phase hphase)).imp fun _ hk => hk.1
    obtain ⟨ps, hps⟩ := tileFrom_eq_ok hbefore 1
    obtain ⟨hcover, htiles⟩ :=
      tileFrom_segments hps hne' (fun phase hphase => (hshares' phase hphase).1) hb
    have hsegments : rules.segments bars = .ok (cover bars 1 0 ps) := by
      refine bind_eq_ok.mpr ⟨ps, hplaced.trans hps, ?_⟩
      rw [Placement.inOrder_of_ascending (tileFrom_ascending hps).2]
      rfl
    exact ⟨_, hsegments, hcover, htiles.no_gap, htiles⟩
  · exact bind_eq_error.mpr (.inl (hplaced.trans (tileFrom_eq_error hlength hshares' hinfinite 1)))

/-- Two phases from the middle, and one from before the beginning, in another order. -/
def midways : RuleSet where
  layers := []
  phases := [
    { id := "b", layers := [], share := some (0.5, 1) },
    { id := "a", layers := [], share := some (0.5, 0.75) },
    { id := "c", layers := [], share := some (-0.25, 0.5) }]
  stretch := false
  ids_nodup := List.nodup_nil

theorem midways_shares : ∀ phase ∈ midways.phases,
    phase.share.isSome ∧ (startShare phase).isFinite := by
  decide +kernel

theorem midways_tiled : midways.phases ≠ [] ∧
    (∀ phase ∈ midways.phases, phase.share.isSome ∧ (startShare phase).isFinite) ∧
    ∃ ordered segments, StablySortedBy startKey midways.phases ordered ∧
      midways.segments 2 = .ok segments ∧ IsCover 2 segments ∧
      (∀ s ∈ segments, s.isGap = false) ∧ Tiles 2 ordered segments := by
  have hne : midways.phases ≠ [] := List.cons_ne_nil _ _
  obtain ⟨ordered, length, hsorted, hlength, htiled, -⟩ :=
    RuleSet.segments_tiled hne midways_shares (show (1 : Int) ≤ 2 by decide) (by decide)
  have htwo : Binary64.ofInt 2 = .ok 2 := by decide +kernel
  have hfinite : ∀ phase ∈ midways.phases, (startShare phase * 2).isFinite := by decide +kernel
  rw [Except.ok.inj (hlength.symm.trans htwo)] at htiled
  obtain ⟨segments, hsegments⟩ := htiled fun phase hphase =>
    hfinite phase (hsorted.perm.mem_iff.mp (List.mem_of_mem_tail hphase))
  exact ⟨hne, midways_shares, ordered, segments, hsorted, hsegments⟩

/-- A start so far behind the piece that its bar is not finite. -/
def farStart : RuleSet where
  layers := []
  phases := [
    { id := "a", layers := [], share := some (0, 0.5) },
    { id := "b", layers := [], share := some (1e308, 1) }]
  stretch := false
  ids_nodup := List.nodup_nil

theorem farStart_refused :
    (∀ phase ∈ farStart.phases, phase.share.isSome ∧ (startShare phase).isFinite) ∧
      farStart.segments 100 = .error .unbounded := by
  have hshares : ∀ phase ∈ farStart.phases, phase.share.isSome ∧ (startShare phase).isFinite := by
    decide +kernel
  refine ⟨hshares, bind_eq_error.mpr (.inl ?_)⟩
  rw [RuleSet.placements_eq_tile (List.cons_ne_nil _ _) fun phase hphase => (hshares phase hphase).1,
    tile, sortBy_eq_mergeSort (by decide +kernel), List.mergeSort_of_pairwise (by decide +kernel)]
  have hlength : Binary64.ofInt 100 = .ok 100 := by decide +kernel
  have hfar : ∃ phase ∈ farStart.phases.tail, ¬ (startShare phase * 100).isFinite := by decide +kernel
  exact tileFrom_eq_error hlength hshares hfar 1

end Segments

end PatternLoom
