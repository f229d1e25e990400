import PatternLoom.Proofs.Timeline.Placement

/-! The segments of a piece follow each other from the first bar to the last, and no two gaps
are neighbours. The sweep over the placements keeps this for what it has still to cover. -/

namespace PatternLoom

/-- Segments that run on from `cursor` to the last bar, `index` phases having come before. -/
def Covers (bars : Int) : Int → Nat → List Segment → Prop
  | cursor, _, [] => cursor = bars + 1
  | cursor, index, s :: ss =>
    s.first = cursor ∧ s.first ≤ s.last ∧ s.index = index ∧
      (s.isGap → ∀ t ∈ ss.head?, t.isGap = false) ∧
      Covers bars (s.last + 1) (if s.isGap then index else index + 1) ss

/-- The gap that the sweep leaves between the next free bar and the start of a segment. -/
def gapBefore (cursor first : Int) (index : Nat) : List Segment :=
  if cursor < first then [⟨none, cursor, first - 1, index⟩] else []

section Sweep

variable {bars cursor : Int} {index : Nat} {p : Placement} {ps : List Placement}

theorem cover_cons_of_dropped
    (h : bars < max cursor p.first ∨ p.last < max cursor p.first) :
    cover bars cursor index (p :: ps) = cover bars cursor index ps := by
  rw [cover]
  exact if_pos h

theorem cover_cons_of_kept (h : ¬ (bars < max cursor p.first ∨ p.last < max cursor p.first)) :
    cover bars cursor index (p :: ps) = gapBefore cursor (max cursor p.first) index ++
      ⟨some p.phase, max cursor p.first, p.last, index⟩ ::
        cover bars (p.last + 1) (index + 1) ps := by
  rw [cover, if_neg h, gapBefore]
  by_cases hgap : cursor < max cursor p.first
  · simp only [if_pos hgap, List.cons_append, List.nil_append]
  · simp only [if_neg hgap, List.nil_append]

/-- A range that starts at the next free bar leaves no gap. -/
theorem cover_cons_of_start (hfirst : p.first = cursor) (hle : cursor ≤ p.last)
    (hbars : cursor ≤ bars) : cover bars cursor index (p :: ps) =
      ⟨some p.phase, cursor, p.last, index⟩ :: cover bars (p.last + 1) (index + 1) ps := by
  have hkept : ¬ (bars < max cursor p.first ∨ p.last < max cursor p.first) := by omega
  rw [cover_cons_of_kept hkept, hfirst, max_self, gapBefore, if_neg (lt_irrefl cursor),
    List.nil_append]

theorem cover_of_past (h : bars < cursor) : cover bars cursor index ps = [] := by
  induction ps with
  | nil => rw [cover, if_neg h.not_ge]
  | cons p ps ih => rw [cover_cons_of_dropped (by omega), ih]

theorem covers_gapBefore {first : Int} {s : Segment} {ss : List Segment}
    (h : Covers bars first index (s :: ss)) (hs : s.isGap = false) (hc : cursor ≤ first) :
    Covers bars cursor index (gapBefore cursor first index ++ s :: ss) := by
  unfold gapBefore
  by_cases hlt : cursor < first
  · rw [if_pos hlt]
    refine ⟨rfl, by dsimp only; omega, rfl, by simp [hs], ?_⟩
    simpa [Segment.isGap] using h
  · obtain rfl : cursor = first := by omega
    rw [if_neg hlt]
    exact h

theorem covers_cover (hf : ∀ p ∈ ps, p.Fits bars) (hc : cursor ≤ bars + 1) :
    Covers bars cursor index (cover bars cursor index ps) := by
  induction ps generalizing cursor index with
  | nil =>
    rw [cover]
    by_cases hend : cursor ≤ bars
    · rw [if_pos hend]
      simpa [Covers] using hend
    · rw [if_neg hend]
      exact Int.le_antisymm hc (by omega)
  | cons p ps ih =>
    obtain ⟨hp, hrest⟩ := List.forall_mem_cons.mp hf
    by_cases h : bars < max cursor p.first ∨ p.last < max cursor p.first
    · rw [cover_cons_of_dropped h]
      exact ih hrest hc
    · rw [cover_cons_of_kept h]
      have hlast := hp.2
      have hnext := @ih (p.last + 1) (index + 1) hrest (by omega)
      refine covers_gapBefore ⟨rfl, ?_, rfl, ?_, ?_⟩ rfl (le_max_left _ _)
      · dsimp only
        omega
      · simp [Segment.isGap]
      · simpa [Segment.isGap] using hnext

theorem filterMap_phase_gapBefore (cursor first : Int) (index : Nat) :
    (gapBefore cursor first index).filterMap Segment.phase = [] := by
  unfold gapBefore
  split <;> rfl

theorem filterMap_phase_cover (bars cursor : Int) (index : Nat) (ps : List Placement) :
    ((cover bars cursor index ps).filterMap Segment.phase).Sublist (ps.map Placement.phase) := by
  induction ps generalizing cursor index with
  | nil =>
    rw [cover]
    split <;> simp
  | cons p ps ih =>
    by_cases h : bars < max cursor p.first ∨ p.last < max cursor p.first
    · rw [cover_cons_of_dropped h]
      exact (ih cursor index).cons _
    · rw [cover_cons_of_kept h, List.filterMap_append, filterMap_phase_gapBefore, List.nil_append]
      simpa using (ih (p.last + 1) (index + 1)).cons_cons p.phase

end Sweep

namespace Covers

variable {bars cursor : Int} {index : Nat} {ss : List Segment}

theorem head_first (h : Covers bars cursor index ss) : ∀ s ∈ ss.head?, s.first = cursor := by
  cases ss with
  | nil => simp
  | cons s ss => simpa using h.1

theorem ne_nil (h : Covers bars cursor index ss) (hc : cursor ≤ bars) : ss ≠ [] := by
  rintro rfl
  simp only [Covers] at h
  omega

theorem getLast_last (h : Covers bars cursor index ss) : ∀ s ∈ ss.getLast?, s.last = bars := by
  induction ss generalizing cursor index with
  | nil => simp
  | cons s ss ih =>
    obtain ⟨_, _, _, _, hrest⟩ := h
    cases ss with
    | nil =>
      simp only [Covers] at hrest
      simp
      omega
    | cons t ss => simpa using ih hrest

theorem first_le_last (h : Covers bars cursor index ss) : ∀ s ∈ ss, s.first ≤ s.last := by
  induction ss generalizing cursor index with
  | nil => simp
  | cons s ss ih =>
    obtain ⟨_, hle, _, _, hrest⟩ := h
    exact List.forall_mem_cons.mpr ⟨hle, ih hrest⟩

theorem isChain (h : Covers bars cursor index ss) :
    ss.IsChain fun s t => t.first = s.last + 1 ∧ (s.isGap → t.isGap = false) := by
  induction ss generalizing cursor index with
  | nil => exact .nil
  | cons s ss ih =>
    obtain ⟨_, _, _, hgap, hrest⟩ := h
    exact List.isChain_cons.mpr
      ⟨fun t ht => ⟨hrest.head_first t ht, fun hs => hgap hs t ht⟩, ih hrest⟩

theorem sum_span (h : Covers bars cursor index ss) :
    (ss.map Segment.span).sum = bars + 1 - cursor := by
  induction ss generalizing cursor index with
  | nil =>
    simp only [Covers] at h
    simp
    omega
  | cons s ss ih =>
    obtain ⟨hfirst, hle, _, _, hrest⟩ := h
    rw [List.map_cons, List.sum_cons, ih hrest, Segment.span]
    omega

theorem index_eq (h : Covers bars cursor index ss) {before after : List Segment} {s : Segment}
    (he : ss = before ++ s :: after) : s.index = index + before.countP (!·.isGap) := by
  induction before generalizing cursor index ss with
  | nil =>
    subst he
    simpa using h.2.2.1
  | cons t before ih =>
    subst he
    obtain ⟨_, _, _, _, hrest⟩ := h
    rw [ih hrest rfl, List.countP_cons]
    cases t.isGap with
    | true => simp
    | false =>
      simp
      omega

theorem map_index (h : Covers bars cursor index ss) :
    (ss.filter (!·.isGap)).map Segment.index = List.range' index (ss.countP (!·.isGap)) := by
  induction ss generalizing cursor index with
  | nil => rfl
  | cons s ss ih =>
    obtain ⟨_, _, hindex, _, hrest⟩ := h
    have hi := ih hrest
    cases hg : s.isGap with
    | true => simpa [hg] using hi
    | false => simpa [hg, hindex, List.range'_succ] using hi

end Covers

section Segments

variable {rules : RuleSet} {bars : Int}

theorem RuleSet.inOrder_fits {placed : List Placement} (h : rules.placements bars = .ok placed)
    (hb : 1 ≤ bars) : ∀ p ∈ Placement.inOrder placed, p.Fits bars := by
  intro p hp
  have hsort : (Placement.inOrder placed).Perm placed := List.mergeSort_perm _ _
  exact placements_fit h hb p (hsort.mem_iff.mp hp)

theorem RuleSet.segments_covers {segments : List Segment} (h : rules.segments bars = .ok segments)
    (hb : 1 ≤ bars) : Covers bars 1 0 segments := by
  obtain ⟨ps, hps, h⟩ := bind_eq_ok.mp h
  obtain rfl := pure_eq_ok.mp h
  exact covers_cover (inOrder_fits hps hb) (by omega)

theorem RuleSet.segments_phase_mem {segments : List Segment}
    (h : rules.segments bars = .ok segments) {s : Segment} {phase : Phase} (hs : s ∈ segments)
    (hphase : s.phase = some phase) : phase ∈ rules.phases := by
  obtain ⟨ps, hps, h⟩ := bind_eq_ok.mp h
  obtain rfl := pure_eq_ok.mp h
  have hsort : (Placement.inOrder ps).Perm ps := List.mergeSort_perm _ _
  have hmem := (filterMap_phase_cover bars 1 0 (Placement.inOrder ps)).mem
    (List.mem_filterMap.mpr ⟨s, hs, hphase⟩)
  exact (RuleSet.placements_perm hps).mem_iff.mp ((hsort.map Placement.phase).mem_iff.mp hmem)

/-- A single phase that gives a share takes the whole piece. -/
theorem segments_of_single {phase : Phase} (hp : rules.phases = [phase])
    (hs : phase.share.isSome) (hn : (startShare phase).isNan = false) (bars : Int) :
    rules.segments bars = .ok (cover bars 1 0 [⟨phase, 1, bars⟩]) := by
  have hplaced : rules.placements bars = .ok [⟨phase, 1, bars⟩] := by
    have hsort : sortBy startsBefore (fun p => !(startShare p).isNan) [phase] = [phase] := by
      rw [sortBy_eq_mergeSort (by simp [hn]), List.mergeSort_singleton]
    rw [RuleSet.placements, hp, if_pos (by simp [hs]), tile, hsort]
    rfl
  refine bind_eq_ok.mpr ⟨_, hplaced, ?_⟩
  rw [Placement.inOrder, List.mergeSort_singleton]
  rfl

theorem cover_single (phase : Phase) (hb : 1 ≤ bars) :
    cover bars 1 0 [⟨phase, 1, bars⟩] = [⟨some phase, 1, bars, 0⟩] := by
  have hstart : (⟨phase, 1, bars⟩ : Placement).first = 1 := rfl
  rw [cover_cons_of_start hstart hb hb, cover_of_past (Int.lt_succ bars)]

end Segments

/-- What a listener can rely on: the segments cover the bars of the piece one after the other,
and count the phases among them. -/
structure IsCover (bars : Int) (segments : List Segment) : Prop where
  ne_nil : segments ≠ []
  first_eq : ∀ s ∈ segments.head?, s.first = 1
  last_eq : ∀ s ∈ segments.getLast?, s.last = bars
  first_le_last : ∀ s ∈ segments, s.first ≤ s.last
  contiguous : segments.IsChain fun s t => t.first = s.last + 1
  sum_span : (segments.map Segment.span).sum = bars
  gaps_apart : segments.IsChain fun s t => ¬ (s.isGap ∧ t.isGap)
  gap_id : ∀ s ∈ segments, s.isGap → s.id = "gap-" ++ toString s.first ++ "-" ++ toString s.last
  phase_index : (segments.filter (!·.isGap)).map Segment.index =
    List.range (segments.countP (!·.isGap))
  index_eq : ∀ before s after, segments = before ++ s :: after →
    s.index = before.countP (!·.isGap)

theorem Covers.isCover {bars : Int} {segments : List Segment} (h : Covers bars 1 0 segments)
    (hb : 1 ≤ bars) : IsCover bars segments where
  ne_nil := h.ne_nil hb
  first_eq := h.head_first
  last_eq := h.getLast_last
  first_le_last := h.first_le_last
  contiguous := h.isChain.imp fun _ _ hst => hst.1
  sum_span := by
    rw [h.sum_span]
    omega
  gaps_apart := h.isChain.imp fun _ _ hst ⟨hs, ht⟩ => by simp [hst.2 hs] at ht
  gap_id := by
    intro s _ hs
    have hphase : s.phase = none := Option.isNone_iff_eq_none.mp hs
    rw [Segment.id, hphase]
  phase_index := by rw [h.map_index, List.range_eq_range']
  index_eq := by
    intro before s after he
    rw [h.index_eq he, Nat.zero_add]

/-- In a piece of ordinary size the segments cover the piece, each phase at most once, unless
there is a phase without a range: then there are none, and the first such phase is named. -/
theorem RuleSet.segments_cover {rules : RuleSet} {bars : Int} (hr : rules.InRange bars)
    (hb : 1 ≤ bars) (hmax : bars ≤ 2 ^ 50) :
    match rules.phases.find? Phase.lacksRange with
    | some phase => rules.segments bars = .error (.phaseWithoutRange phase.id)
    | none => ∃ segments, rules.segments bars = .ok segments ∧ IsCover bars segments ∧
        (segments.filterMap Segment.phase).Subperm rules.phases := by
  split
  · rename_i phase hphase
    exact bind_eq_error.mpr (.inl (placements_eq_error hr hb hmax hphase))
  · rename_i hphases
    obtain ⟨ps, hps, hperm⟩ := placements_eq_ok hr hb hmax hphases
    have hsort : (Placement.inOrder ps).Perm ps := List.mergeSort_perm _ _
    have hfits : ∀ p ∈ Placement.inOrder ps, p.Fits bars :=
      fun p hp => placements_fit hps hb p (hsort.mem_iff.mp hp)
    refine ⟨_, bind_eq_ok.mpr ⟨ps, hps, rfl⟩, (covers_cover hfits (by omega)).isCover hb, ?_⟩
    exact (filterMap_phase_cover _ _ _ _).subperm.trans
      ((hsort.map Placement.phase).trans hperm).subperm

/-- Two ranges that overlap and a share of the piece behind them. -/
def overlapping : RuleSet where
  layers := []
  phases := [
    { id := "verse", layers := [], bars := some (1, 4) },
    { id := "chorus", layers := [], bars := some (3, 6) },
    { id := "coda", layers := [], share := some (0.875, 1) }]
  stretch := false
  ids_nodup := List.nodup_nil

theorem overlapping_inRange : overlapping.InRange 8 where
  bars_le := by decide
  shares_finite := by
    intro phase hphase share hshare length hlength
    have h8 : Binary64.ofInt 8 = .ok 8 := by decide +kernel
    rw [h8] at hlength
    obtain rfl := Except.ok.inj hlength
    have hfinite : ∀ phase ∈ overlapping.phases, ∀ share ∈ phase.share,
        (share.1 * 8).isFinite = true ∧ (share.2 * 8).isFinite = true := by decide +kernel
    exact hfinite phase hphase share hshare

theorem overlapping_cover : overlapping.InRange 8 ∧ (1 : Int) ≤ 8 ∧ (8 : Int) ≤ 2 ^ 50 ∧
    ∃ segments, overlapping.segments 8 = .ok segments ∧ IsCover 8 segments ∧
      (segments.filterMap Segment.phase).Subperm overlapping.phases :=
  ⟨overlapping_inRange, by decide, by decide,
    RuleSet.segments_cover overlapping_inRange (by decide) (by decide)⟩

end PatternLoom
