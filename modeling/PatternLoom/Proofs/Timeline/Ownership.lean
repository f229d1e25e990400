import PatternLoom.Proofs.Order.Stable
import PatternLoom.Proofs.Timeline.Cover

/-! Who owns a bar. The sweep keeps no more than the next free bar, but its segments are those
of the first range that claims each bar: a range that was cut or left out claims no free bar. -/

namespace PatternLoom

namespace Placement

/-- Whether a bar lies in the range. -/
def claims (b : Int) (p : Placement) : Bool := decide (p.first ≤ b ∧ b ≤ p.last)

theorem claims_iff {b : Int} {p : Placement} : p.claims b = true ↔ p.first ≤ b ∧ b ≤ p.last := by
  simp [claims]

theorem claims_eq_false {b : Int} {p : Placement} :
    p.claims b = false ↔ ¬ (p.first ≤ b ∧ b ≤ p.last) := by
  simp [claims]

/-- First bar, last bar and id, which order ranges in this turn. -/
def key (p : Placement) : Int ×ₗ (Int ×ₗ String) := toLex (p.first, toLex (p.last, p.phase.id))

theorem key_le_iff {p q : Placement} : p.key ≤ q.key ↔ q.precedes p = false := by
  rw [← not_lt, ← Bool.not_eq_true, not_iff_not, key, key, Prod.Lex.toLex_lt_toLex,
    Prod.Lex.toLex_lt_toLex, precedes]
  by_cases hfirst : q.first = p.first
  · by_cases hlast : q.last = p.last
    · simp [hfirst, hlast]
    · simp [hfirst, hlast]
  · simp [hfirst]

theorem first_le_of_key_le {p q : Placement} (h : p.key ≤ q.key) : p.first ≤ q.first := by
  rw [key, key, Prod.Lex.toLex_le_toLex] at h
  dsimp only at h
  omega

/-- The ranges in ascending order of their keys, those of one key in the order of before. -/
structure StablySorted (placed ranges : List Placement) : Prop where
  perm : ranges.Perm placed
  sorted : ranges.Pairwise fun p q => p.key ≤ q.key
  stable : ∀ ps : List Placement, ps.Sublist placed → (ps.Pairwise fun p q => p.key ≤ q.key) → ps.Sublist ranges

theorem stablySorted_inOrder (placed : List Placement) : StablySorted placed (inOrder placed) := by
  have hsorted : StablySortedBy key placed (inOrder placed) := by
    refine stablySortedBy_mergeSort fun p _ q _ => ?_
    rw [Bool.eq_iff_iff, decide_eq_true_iff, key_le_iff, Bool.not_eq_true']
  exact ⟨hsorted.perm, hsorted.sorted, hsorted.stable⟩

end Placement

namespace Segment

/-- The segment has the bar in it. -/
def Holds (s : Segment) (b : Int) : Prop := s.first ≤ b ∧ b ≤ s.last

end Segment

namespace Covers

variable {bars cursor : Int} {index : Nat} {ss : List Segment}

theorem cursor_le (h : Covers bars cursor index ss) : ∀ s ∈ ss, cursor ≤ s.first := by
  induction ss generalizing cursor index with
  | nil => simp
  | cons s ss ih =>
    obtain ⟨hfirst, hle, _, _, hrest⟩ := h
    rintro t (_ | ⟨_, ht⟩)
    · omega
    · have htail := ih hrest t ht
      omega

theorem le_bars (h : Covers bars cursor index ss) : cursor ≤ bars + 1 := by
  induction ss generalizing cursor index with
  | nil => exact h.le
  | cons s ss ih =>
    obtain ⟨hfirst, hle, _, _, hrest⟩ := h
    have htail := ih hrest
    omega

theorem last_le (h : Covers bars cursor index ss) : ∀ s ∈ ss, s.last ≤ bars := by
  induction ss generalizing cursor index with
  | nil => simp
  | cons s ss ih =>
    obtain ⟨_, _, _, _, hrest⟩ := h
    have htail := hrest.le_bars
    exact List.forall_mem_cons.mpr ⟨by omega, ih hrest⟩

/-- Each bar from the cursor on has one segment. -/
theorem exists_holds (h : Covers bars cursor index ss) {b : Int} (hc : cursor ≤ b)
    (hb : b ≤ bars) : ∃ before s after, ss = before ++ s :: after ∧ s.Holds b ∧
      ∀ t ∈ before ++ after, ¬ t.Holds b := by
  induction ss generalizing cursor index with
  | nil =>
    simp only [Covers] at h
    omega
  | cons s ss ih =>
    obtain ⟨hfirst, _, _, _, hrest⟩ := h
    by_cases hs : b ≤ s.last
    · refine ⟨[], s, ss, rfl, ⟨by omega, hs⟩, ?_⟩
      intro t ht hold
      have hafter := hrest.cursor_le t ht
      have hfirst' := hold.1
      omega
    · obtain ⟨before, t, after, rfl, ht, hothers⟩ := ih hrest (by omega)
      refine ⟨s :: before, t, after, rfl, ht, ?_⟩
      rintro u (_ | ⟨_, hu⟩) hold
      · exact hs hold.2
      · exact hothers u hu hold

end Covers

section Sweep

variable {bars cursor : Int} {index : Nat} {p : Placement} {ps : List Placement}

/-- No range claims a bar of a gap. -/
theorem cover_gap (hf : ∀ p ∈ ps, p.Fits bars) (hsort : ps.Pairwise fun p q => p.first ≤ q.first)
    (hc : cursor ≤ bars + 1) {s : Segment} (hs : s ∈ cover bars cursor index ps)
    (hgap : s.isGap) {b : Int} (hb : s.Holds b) : ∀ p ∈ ps, p.claims b = false := by
  induction ps generalizing cursor index with
  | nil => simp
  | cons p ps ih =>
    have hcovers : Covers bars cursor index (cover bars cursor index (p :: ps)) :=
      covers_cover hf hc
    have hcursor := hcovers.cursor_le s hs
    have hbars := hcovers.last_le s hs
    have hrest : ∀ q ∈ ps, q.Fits bars := fun q hq => hf q (List.mem_cons_of_mem _ hq)
    have hfits := (hf p List.mem_cons_self).2
    obtain ⟨hfirst, hlast⟩ := hb
    obtain ⟨hle, hsort⟩ := List.pairwise_cons.mp hsort
    by_cases h : bars < max cursor p.first ∨ p.last < max cursor p.first
    · rw [cover_cons_of_dropped h] at hs
      refine List.forall_mem_cons.mpr ⟨?_, ih hrest hsort hc hs⟩
      rw [Placement.claims_eq_false]
      omega
    · rw [cover_cons_of_kept h] at hs
      rcases List.mem_append.mp hs with hs | hs
      · -- The gap ends in front of `p`, and the ranges behind `p` start no earlier.
        have hend : s.last < p.first := by
          rw [gapBefore] at hs
          split at hs
          · obtain rfl := List.mem_singleton.mp hs
            dsimp only
            omega
          · simp at hs
        have hclaims : ∀ q ∈ p :: ps, p.first ≤ q.first := List.forall_mem_cons.mpr ⟨le_rfl, hle⟩
        intro q hq
        have hq' := hclaims q hq
        rw [Placement.claims_eq_false]
        omega
      · rcases List.mem_cons.mp hs with rfl | hs
        · simp [Segment.isGap] at hgap
        · have hnext : p.last + 1 ≤ bars + 1 := by omega
          have hafter := (covers_cover hrest hnext).cursor_le s hs
          refine List.forall_mem_cons.mpr ⟨?_, ih hrest hsort hnext hs⟩
          rw [Placement.claims_eq_false]
          omega

/-- The bar is free from `cursor` on and goes to the range at position `i`, as that is the
first to claim it. -/
def GoesTo (bars cursor : Int) (ps : List Placement) (b : Int) (i : Nat) : Prop :=
  cursor ≤ b ∧ b ≤ bars ∧ ps.findIdx? (·.claims b) = some i

theorem not_goesTo_zero (h : bars < max cursor p.first ∨ p.last < max cursor p.first) (b : Int) :
    ¬ GoesTo bars cursor (p :: ps) b 0 := by
  rintro ⟨hc, hb, hi⟩
  have hclaims : p.claims b = true := by
    by_contra hnot
    simp [List.findIdx?_cons, hnot] at hi
  rw [Placement.claims_iff] at hclaims
  omega

theorem goesTo_succ_of_dropped (h : bars < max cursor p.first ∨ p.last < max cursor p.first)
    (b : Int) (i : Nat) :
    GoesTo bars cursor (p :: ps) b (i + 1) ↔ GoesTo bars cursor ps b i := by
  unfold GoesTo
  refine and_congr_right fun hc => and_congr_right fun hb => ?_
  have hclaims : p.claims b = false := by
    rw [Placement.claims_eq_false]
    omega
  simp [List.findIdx?_cons, hclaims]

theorem goesTo_zero_of_kept (hfits : p.Fits bars)
    (h : ¬ (bars < max cursor p.first ∨ p.last < max cursor p.first)) (b : Int) :
    GoesTo bars cursor (p :: ps) b 0 ↔ max cursor p.first ≤ b ∧ b ≤ p.last := by
  have hlast := hfits.2
  unfold GoesTo
  by_cases hclaims : p.claims b = true
  · simp only [List.findIdx?_cons, hclaims, if_true, and_true]
    rw [Placement.claims_iff] at hclaims
    omega
  · have hnot := hclaims
    rw [Placement.claims_iff] at hnot
    simp only [List.findIdx?_cons, hclaims]
    constructor
    · rintro ⟨_, _, hi⟩
      simp at hi
    · intro hb
      omega

/-- What `p` leaves over for the ranges behind it starts at the bar after `p`, because they
claim no bar in front of it. -/
theorem goesTo_succ_of_kept (hfits : p.Fits bars) (hle : ∀ q ∈ ps, p.first ≤ q.first)
    (h : ¬ (bars < max cursor p.first ∨ p.last < max cursor p.first)) (b : Int) (i : Nat) :
    GoesTo bars cursor (p :: ps) b (i + 1) ↔ GoesTo bars (p.last + 1) ps b i := by
  have hlast := hfits.2
  unfold GoesTo
  by_cases hclaims : p.claims b = true
  · have hb := Placement.claims_iff.mp hclaims
    simp only [List.findIdx?_cons, hclaims, if_true]
    constructor
    · rintro ⟨_, _, hi⟩
      simp at hi
    · intro hb'
      omega
  · have hb := Placement.claims_eq_false.mp (Bool.eq_false_of_not_eq_true hclaims)
    simp only [List.findIdx?_cons, hclaims]
    constructor
    · rintro ⟨hc, hbars, hi⟩
      simp only [Bool.false_eq_true, if_false, Option.map_eq_some_iff, Nat.add_right_cancel_iff,
        exists_eq_right] at hi
      obtain ⟨hlt, hq, _⟩ := List.findIdx?_eq_some_iff_getElem.mp hi
      have hq' := hle _ (List.getElem_mem hlt)
      rw [Placement.claims_iff] at hq
      exact ⟨by omega, hbars, hi⟩
    · rintro ⟨hc, hbars, hi⟩
      exact ⟨by omega, hbars, by simp [hi]⟩

/-- The segment belongs to the range at position `i`: it has just the bars that go there. -/
def IsShare (bars cursor : Int) (ps : List Placement) (i : Nat) (s : Segment) : Prop :=
  ∃ p, ps[i]? = some p ∧ s.phase = some p.phase ∧ ∀ b, s.Holds b ↔ GoesTo bars cursor ps b i

theorem IsShare.cons {cursor' : Int} {i : Nat} {s : Segment} (h : IsShare bars cursor' ps i s)
    (hgoes : ∀ b, GoesTo bars cursor (p :: ps) b (i + 1) ↔ GoesTo bars cursor' ps b i) :
    IsShare bars cursor (p :: ps) (i + 1) s := by
  obtain ⟨q, hq, hphase, hholds⟩ := h
  exact ⟨q, hq, hphase, fun b => (hholds b).trans (hgoes b).symm⟩

/-- The ranges that some bar goes to, in their order, are those of the phases in the cover. -/
theorem cover_shares (hf : ∀ p ∈ ps, p.Fits bars)
    (hsort : ps.Pairwise fun p q => p.first ≤ q.first) :
    ∃ kept : List Nat, kept.Pairwise (· < ·) ∧
      (∀ i, i ∈ kept ↔ ∃ b, GoesTo bars cursor ps b i) ∧
      List.Forall₂ (IsShare bars cursor ps) kept
        ((cover bars cursor index ps).filter (!·.isGap)) := by
  induction ps generalizing cursor index with
  | nil =>
    refine ⟨[], .nil, by simp [GoesTo], ?_⟩
    rw [cover]
    split <;> simp [Segment.isGap]
  | cons p ps ih =>
    have hrest : ∀ q ∈ ps, q.Fits bars := fun q hq => hf q (List.mem_cons_of_mem _ hq)
    have hfits := hf p List.mem_cons_self
    obtain ⟨hle, hsort⟩ := List.pairwise_cons.mp hsort
    by_cases h : bars < max cursor p.first ∨ p.last < max cursor p.first
    · obtain ⟨kept, hasc, hkept, hshares⟩ := @ih cursor index hrest hsort
      refine ⟨kept.map (· + 1), ?_, ?_, ?_⟩
      · exact List.pairwise_map.mpr (hasc.imp fun hij => Nat.succ_lt_succ hij)
      · intro i
        cases i with
        | zero => simpa using not_goesTo_zero h
        | succ i => simp [hkept, goesTo_succ_of_dropped h]
      · rw [cover_cons_of_dropped h, List.forall₂_map_left_iff]
        exact hshares.imp fun i _ hs => hs.cons fun b => goesTo_succ_of_dropped h b i
    · obtain ⟨kept, hasc, hkept, hshares⟩ := @ih (p.last + 1) (index + 1) hrest hsort
      refine ⟨0 :: kept.map (· + 1), ?_, ?_, ?_⟩
      · refine List.pairwise_cons.mpr ⟨by simp, ?_⟩
        exact List.pairwise_map.mpr (hasc.imp fun hij => Nat.succ_lt_succ hij)
      · intro i
        cases i with
        | zero =>
          have hmax : GoesTo bars cursor (p :: ps) (max cursor p.first) 0 :=
            (goesTo_zero_of_kept hfits h _).mpr (by omega)
          simpa using ⟨_, hmax⟩
        | succ i => simp [hkept, goesTo_succ_of_kept hfits hle h]
      · have hgap : (gapBefore cursor (max cursor p.first) index).filter (!·.isGap) = [] := by
          rw [gapBefore]
          split <;> simp [Segment.isGap]
        rw [cover_cons_of_kept h, List.filter_append, hgap, List.nil_append,
          List.filter_cons_of_pos (by simp [Segment.isGap])]
        refine .cons ⟨p, rfl, rfl, fun b => (goesTo_zero_of_kept hfits h b).symm⟩ ?_
        rw [List.forall₂_map_left_iff]
        exact hshares.imp fun i _ hs => hs.cons fun b => goesTo_succ_of_kept hfits hle h b i

end Sweep

/-- Overlapping ranges that stand in order are settled bar by bar: each bar is held by one
segment, that of the first range to claim it, or by a gap if none does. A range is dropped if
ranges before it, or the end of the piece, leave it no bar, and the others keep their order. -/
structure FirstClaim (bars : Int) (ranges : List Placement) (segments : List Segment) :
    Prop where
  holder : ∀ b, 1 ≤ b → b ≤ bars → ∃ before s after, segments = before ++ s :: after ∧
    s.Holds b ∧ ∀ t ∈ before ++ after, ¬ t.Holds b
  gap_iff : ∀ s ∈ segments, ∀ b, s.Holds b → (s.isGap ↔ ∀ p ∈ ranges, p.claims b = false)
  owner : ∀ s ∈ segments, ∀ b, s.Holds b → ∀ p, ranges.find? (·.claims b) = some p →
    s.phase = some p.phase ∧ s.id = p.phase.id ∧ s.layers = p.phase.layers ∧
      s.levels = p.phase.levels
  shares : ∃ kept : List Nat, kept.Pairwise (· < ·) ∧
    List.Forall₂ (IsShare bars 1 ranges) kept (segments.filter (!·.isGap)) ∧
    ∀ i p, ranges[i]? = some p →
      (i ∉ kept ↔ ∀ b, p.claims b → bars < b ∨ ∃ q ∈ ranges.take i, q.claims b)

theorem find?_of_goesTo {bars cursor b : Int} {ps : List Placement} {i : Nat} {p : Placement}
    (h : GoesTo bars cursor ps b i) (hp : ps[i]? = some p) : ps.find? (·.claims b) = some p := by
  obtain ⟨hi, hclaims, hbefore⟩ := List.findIdx?_eq_some_iff_getElem.mp h.2.2
  obtain ⟨_, rfl⟩ := List.getElem?_eq_some_iff.mp hp
  exact List.find?_eq_some_iff_getElem.mpr
    ⟨hclaims, i, hi, rfl, fun j hj => by simpa using hbefore j hj⟩

theorem goesTo_iff_claims {bars cursor b : Int} {ps : List Placement} {i : Nat} {p : Placement}
    (hp : ps[i]? = some p) : GoesTo bars cursor ps b i ↔
      cursor ≤ b ∧ b ≤ bars ∧ p.claims b ∧ ∀ q ∈ ps.take i, ¬ q.claims b := by
  obtain ⟨hi, rfl⟩ := List.getElem?_eq_some_iff.mp hp
  unfold GoesTo
  rw [List.findIdx?_eq_some_iff_getElem]
  refine and_congr_right fun _ => and_congr_right fun _ => ?_
  constructor
  · rintro ⟨_, hclaims, hbefore⟩
    refine ⟨hclaims, fun q hq => ?_⟩
    obtain ⟨j, hj, rfl⟩ := List.mem_take_iff_getElem.mp hq
    exact hbefore j (by omega)
  · rintro ⟨hclaims, hbefore⟩
    refine ⟨hi, hclaims, fun j hj => hbefore _ ?_⟩
    exact List.mem_take_iff_getElem.mpr ⟨j, by omega, rfl⟩

section Claims

variable {bars : Int} {ranges : List Placement} {s : Segment}

/-- A phase in the cover is that of the first range to claim the bars that it has. -/
theorem exists_first_of_mem_cover (hf : ∀ p ∈ ranges, p.Fits bars)
    (hsort : ranges.Pairwise fun p q => p.first ≤ q.first) (hs : s ∈ cover bars 1 0 ranges)
    (hgap : s.isGap = false) : ∃ p : Placement, s.phase = some p.phase ∧
      ∀ b, s.Holds b → ranges.find? (·.claims b) = some p := by
  obtain ⟨kept, -, -, hshares⟩ := @cover_shares bars 1 0 ranges hf hsort
  obtain ⟨i, -, p, hp, hphase, hholds⟩ := exists_of_forall₂_right hshares
    (List.mem_filter.mpr ⟨hs, by simp [hgap]⟩)
  exact ⟨p, hphase, fun b hold => find?_of_goesTo ((hholds b).mp hold) hp⟩

theorem isGap_iff_of_mem_cover (hb : 1 ≤ bars) (hf : ∀ p ∈ ranges, p.Fits bars)
    (hsort : ranges.Pairwise fun p q => p.first ≤ q.first) (hs : s ∈ cover bars 1 0 ranges)
    {b : Int} (hold : s.Holds b) : s.isGap ↔ ∀ p ∈ ranges, p.claims b = false := by
  constructor
  · intro hgap
    exact cover_gap hf hsort (by omega) hs hgap hold
  · intro hnone
    by_contra hnot
    obtain ⟨p, -, hfirst⟩ :=
      exists_first_of_mem_cover hf hsort hs (Bool.eq_false_of_not_eq_true hnot)
    have hclaims := List.find?_some (hfirst b hold)
    rw [hnone p (List.mem_of_find?_eq_some (hfirst b hold))] at hclaims
    cases hclaims

/-- No bar goes to a range if each that it claims lies behind the piece or was claimed before. -/
theorem not_exists_goesTo_iff {i : Nat} {p : Placement} (hp : ranges[i]? = some p)
    (hfirst : 1 ≤ p.first) : (¬ ∃ b, GoesTo bars 1 ranges b i) ↔
      ∀ b, p.claims b → bars < b ∨ ∃ q ∈ ranges.take i, q.claims b := by
  rw [not_exists]
  refine forall_congr' fun b => ?_
  rw [goesTo_iff_claims hp]
  constructor
  · intro hnot hclaims
    by_contra hfree
    rw [not_or, not_exists] at hfree
    have hb₁ := (Placement.claims_iff.mp hclaims).1
    exact hnot ⟨by omega, by omega, hclaims, fun q hq hq' => hfree.2 q ⟨hq, hq'⟩⟩
  · rintro hall ⟨_, hbars, hclaims, hbefore⟩
    rcases hall hclaims with hout | ⟨q, hq, hq'⟩
    · omega
    · exact hbefore q hq hq'

theorem cover_firstClaim (hb : 1 ≤ bars) (hf : ∀ p ∈ ranges, p.Fits bars)
    (hsort : ranges.Pairwise fun p q => p.first ≤ q.first) :
    FirstClaim bars ranges (cover bars 1 0 ranges) := by
  have hcovers : Covers bars 1 0 (cover bars 1 0 ranges) := covers_cover hf (by omega)
  obtain ⟨kept, hasc, hkept, hshares⟩ := @cover_shares bars 1 0 ranges hf hsort
  refine ⟨fun b h₁ h₂ => hcovers.exists_holds h₁ h₂,
    fun s hs b hold => isGap_iff_of_mem_cover hb hf hsort hs hold, ?_, kept, hasc, hshares, ?_⟩
  · intro s hs b hold p hp
    have hnot : s.isGap = false := by
      by_contra hgap
      have hnone := (isGap_iff_of_mem_cover hb hf hsort hs hold).mp
        (Bool.eq_true_of_not_eq_false hgap)
      have hclaims := List.find?_some hp
      rw [hnone p (List.mem_of_find?_eq_some hp)] at hclaims
      cases hclaims
    obtain ⟨q, hphase, hfirst⟩ := exists_first_of_mem_cover hf hsort hs hnot
    obtain rfl := Option.some.inj ((hfirst b hold).symm.trans hp)
    refine ⟨hphase, ?_, ?_, ?_⟩
    · rw [Segment.id, hphase]
    · rw [Segment.layers, hphase]; rfl
    · rw [Segment.levels, hphase]; rfl
  · intro i p hp
    rw [hkept]
    exact not_exists_goesTo_iff hp (hf p (List.mem_of_getElem? hp)).1

end Claims

/-- Whenever the phases of a rule set can be laid out, each bar of the piece goes to the first
phase that claims it, in the order of start, end and id. -/
theorem RuleSet.segments_firstClaim {rules : RuleSet} {bars : Int} {segments : List Segment}
    (h : rules.segments bars = .ok segments) (hb : 1 ≤ bars) :
    ∃ placed, rules.placements bars = .ok placed ∧
      Placement.StablySorted placed (Placement.inOrder placed) ∧
      FirstClaim bars (Placement.inOrder placed) segments := by
  obtain ⟨placed, hplaced, hcover⟩ := bind_eq_ok.mp h
  obtain rfl := pure_eq_ok.mp hcover
  have hsorted := Placement.stablySorted_inOrder placed
  refine ⟨placed, hplaced, hsorted, cover_firstClaim hb ?_ ?_⟩
  · exact fun p hp => placements_fit hplaced hb p (hsorted.perm.mem_iff.mp hp)
  · exact hsorted.sorted.imp Placement.first_le_of_key_le

theorem overlapping_segments : ∃ segments, overlapping.segments 8 = .ok segments := by
  have hok : (overlapping.placements 8).isOk := by decide +kernel
  obtain ⟨placed, hplaced⟩ := eq_ok_of_isOk hok
  exact ⟨_, bind_eq_ok.mpr ⟨placed, hplaced, rfl⟩⟩

theorem overlapping_firstClaim : ∃ segments, overlapping.segments 8 = .ok segments ∧
    (1 : Int) ≤ 8 ∧ ∃ placed, overlapping.placements 8 = .ok placed ∧
      Placement.StablySorted placed (Placement.inOrder placed) ∧
      FirstClaim 8 (Placement.inOrder placed) segments := by
  obtain ⟨segments, hsegments⟩ := overlapping_segments
  exact ⟨segments, hsegments, by decide, RuleSet.segments_firstClaim hsegments (by decide)⟩

end PatternLoom
