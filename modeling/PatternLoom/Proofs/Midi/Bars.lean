import PatternLoom.Proofs.Midi.Pace

/-! How many bars the notes on the grid need. The last end of a note is a whole number of steps,
and so is counted up to a rounding; the bars are those that are needed unless the last note ends
at a bar line, where the rounding can add one. -/

namespace PatternLoom
namespace Midi

open Binary64

/-- The step at which a note ends on the grid: the one on which its end falls, but one behind the
step on which it begins if that is later. -/
def BeatNote.lastStep (step : Binary64) (n : BeatNote) : Result Int := do
  let start ← (← n.start.quotient step).roundHalfUp
  let stop ← (← n.stop.quotient step).roundHalfUp
  return max (start + 1) stop

section Ends

variable {step : Binary64} {n m : BeatNote} {d : Nat} {k e : Nat}

/-- A note on the grid, from the step `k` on, and where its own end falls. -/
structure BeatNote.Snapped (step : Binary64) (n m : BeatNote) (k e : Nat) : Prop where
  le : k ≤ e
  stop_eq : ∃ x y, ofInt k = .ok x ∧ ofInt e = .ok y ∧
    m.stop = x * step + step.larger (y * step - x * step)

theorem BeatNote.lastStep_eq {k e : Int} (h : FallsOn step n.start k)
    (h' : FallsOn step n.stop e) : n.lastStep step = .ok (max (k + 1) e) := by
  obtain ⟨q, hq, hk⟩ := h
  obtain ⟨q', hq', he⟩ := h'
  exact bind_eq_ok.mpr ⟨q, hq, bind_eq_ok.mpr ⟨k, hk, bind_eq_ok.mpr ⟨q', hq',
    bind_eq_ok.mpr ⟨e, he, rfl⟩⟩⟩⟩

theorem BeatNote.Lasting.snapped (hs : IsStep step d) (hn : n.Lasting step)
    (h : n.onGrid step = .ok m) :
    ∃ k e : Nat, n.lastStep step = .ok ((max (k + 1) e : Nat) : Int) ∧ n.Snapped step m k e := by
  simp only [onGrid, snap, bind_eq_ok, pure_eq_ok] at h
  obtain ⟨_, ⟨q, hq, k, hk, x, hx, rfl⟩, _, ⟨q', hq', e, he, y, hy, rfl⟩, rfl⟩ := h
  have hfalls : FallsOn step n.start k := ⟨q, hq, hk⟩
  have hfalls' : FallsOn step n.stop e := ⟨q', hq', he⟩
  obtain ⟨hf, -⟩ := hfalls'.bounds hs.unsigned hs.finite hn.stop_unsigned
  have hle := hfalls.mono hfalls' hs.unsigned hs.finite hn.start hn.stop_unsigned
    (hn.start_le_stop hf).2
  have hnonneg := hfalls.nonneg hs.unsigned hs.finite hn.start
  have hlast := n.lastStep_eq hfalls hfalls'
  obtain ⟨k, rfl⟩ := Int.eq_ofNat_of_zero_le hnonneg
  obtain ⟨e, rfl⟩ := Int.eq_ofNat_of_zero_le (hnonneg.trans hle)
  exact ⟨k, e, by rw [hlast]; push_cast; rfl, by exact_mod_cast hle, x, y, hx, hy, rfl⟩

/-- The roundings between a note and the end of the note on the grid. -/
theorem BeatNote.Snapped.exists_roundings (h : n.Snapped step m k e) (hs : IsStep step d)
    (he : e ≤ 2 ^ 52) : ∃ a b c, IsRounding a (k * step.value) ∧ IsRounding b (e * step.value) ∧
      (IsRounding c (b.value - a.value) ∧ c.isFinite) ∧
      IsRounding m.stop (a.value + max step.value c.value) := by
  obtain ⟨x, y, hx, hy, hstop⟩ := h.stop_eq
  have hle := h.le
  have ha := hs.isRounding_mul (by omega) hx
  have hb := hs.isRounding_mul (by omega) hy
  obtain ⟨haf, -⟩ := hs.near (by omega) ha
  obtain ⟨hbf, -⟩ := hs.near (by omega) hb
  have hab := ha.mono hb haf hbf
    (mul_le_mul_of_nonneg_right (by exact_mod_cast hle) hs.unsigned.value_nonneg)
  have hc := isRounding_sub hb.unsigned ha.unsigned hbf haf hab
  have hcf := hc.isFinite_of_le (isRounding_self hb.unsigned hbf)
    (sub_le_self _ ha.unsigned.value_nonneg) hbf
  have hsum := isRounding_add ha.unsigned hs.unsigned.larger haf (isFinite_larger hs.finite hcf)
  rw [value_larger hs.finite hcf, ← hstop] at hsum
  exact ⟨_, _, _, ha, hb, ⟨hc, hcf⟩, hsum⟩

/-- Where steps are rounded, the end of a note is off by a few roundings. -/
theorem BeatNote.Snapped.stop_near (h : n.Snapped step m k e) (hs : IsStep step d)
    (hd : d ≤ 2 ^ 40) (hlast : max (k + 1) e ≤ 2 ^ 40) :
    |m.stop.value * d - (max (k + 1) e : Nat)| ≤ 1 / 2 ^ 8 := by
  obtain ⟨hk, he⟩ := max_le_iff.mp hlast
  obtain ⟨a, b, c, ha, hb, ⟨hc, hcf⟩, hstop⟩ := h.exists_roundings hs (by omega)
  have hdq : (0 : ℚ) ≤ d := Nat.cast_nonneg d
  have hd' : (d : ℚ) ≤ 2 ^ 40 := by exact_mod_cast hd
  have hk' : (k : ℚ) + 1 ≤ 2 ^ 40 := by exact_mod_cast hk
  have he' : (e : ℚ) ≤ 2 ^ 40 := by exact_mod_cast he
  have hkq : (0 : ℚ) ≤ k := Nat.cast_nonneg k
  obtain ⟨haerr, haerr'⟩ := abs_le.mp (hs.near (by omega) ha).2
  obtain ⟨hberr, hberr'⟩ := abs_le.mp (hs.near (by omega) hb).2
  obtain ⟨hcerr, hcerr'⟩ := abs_le.mp (hc.abs_mul_sub_le hcf hdq)
  rw [sub_mul] at hcerr hcerr'
  have hlength : |c.value * d - (e - k)| ≤ 1 / 2 ^ 9 :=
    abs_le.mpr ⟨by linarith, by linarith⟩
  have hlonger : |max step.value c.value * d - max 1 ((e : ℚ) - k)| ≤ 1 / 2 ^ 9 := by
    rw [max_mul_of_nonneg _ _ hdq]
    exact (abs_max_sub_max_le_max _ _ _ _).trans (max_le (hs.error.trans (by norm_num)) hlength)
  obtain ⟨hlow, hhigh⟩ := abs_le.mp hlonger
  have hcast : ((max (k + 1) e : Nat) : ℚ) = k + max 1 ((e : ℚ) - k) := by
    rw [← max_add_add_left, add_sub_cancel]
    push_cast
    rfl
  have hbound : (k : ℚ) + max 1 ((e : ℚ) - k) ≤ 2 ^ 40 := by
    rw [← hcast]
    exact_mod_cast hlast
  have hf : m.stop.isFinite := by
    refine isFinite_of_le_two_pow hstop ?_
    have hle := le_mul_of_one_le_right hstop.nonneg hs.one_le
    linarith
  obtain ⟨herr, herr'⟩ := abs_le.mp (hstop.abs_mul_sub_le hf hdq)
  rw [add_mul] at herr herr'
  rw [hcast]
  refine abs_le.mpr ⟨?_, ?_⟩
  · linarith
  · linarith

/-- On a grid of a power of two steps a beat nothing is rounded. -/
theorem BeatNote.Snapped.stop_exact {p : Nat} (h : n.Snapped step m k e)
    (hs : IsStep step d) (hp : step.value * 2 ^ p = 1) (hp' : p ≤ 40)
    (hlast : max (k + 1) e ≤ 2 ^ 40) : m.stop.value * 2 ^ p = (max (k + 1) e : Nat) := by
  obtain ⟨hk, he⟩ := max_le_iff.mp hlast
  obtain ⟨a, b, c, ha, hb, ⟨hc, -⟩, hstop⟩ := h.exists_roundings hs (by omega)
  have hparts : ∀ i : Nat, i * step.value * 2 ^ p = i := fun i => by
    rw [mul_assoc, hp, mul_one]
  have hav := (ha.exact (hparts k) (by omega) (by omega)).2
  have hbv := (hb.exact (hparts e) (by omega) (by omega)).2
  rw [hav, hbv, ← sub_mul, ← Nat.cast_sub h.le] at hc
  have hcv := (hc.exact (hparts (e - k)) (by omega) (by omega)).2
  have hsum : (k * step.value + max step.value ((e - k : Nat) * step.value)) * 2 ^ p =
      (max (k + 1) e : Nat) := by
    rw [add_mul, hparts, max_mul_of_nonneg _ _ (by positivity), hp, hparts, ← Nat.cast_one,
      ← Nat.cast_max, ← Nat.cast_add, ← Nat.add_max_add_left, Nat.add_sub_cancel' h.le]
  rw [hav, hcv] at hstop
  rw [(hstop.exact hsum (by omega) (by omega)).2, hsum]

/-- A note on the grid ends at a step, but for rounding. -/
structure BeatNote.EndsAt (d : Nat) (m : BeatNote) (e : Int) : Prop where
  unsigned : m.stop.Unsigned
  near : |m.stop.value * d - e| ≤ 1 / 2 ^ 8
  exact : (∃ p, d = 2 ^ p) → m.stop.value * d = e

theorem BeatNote.Snapped.endsAt (h : n.Snapped step m k e) (hs : IsStep step d)
    (hstep : gridStep (.whole d) = .ok step) (hd : d ≤ 2 ^ 40) (hlast : max (k + 1) e ≤ 2 ^ 40) :
    m.EndsAt d (max (k + 1) e : Nat) := by
  refine ⟨?_, by exact_mod_cast h.stop_near hs hd hlast, ?_⟩
  · obtain ⟨a, b, c, -, -, -, hstop⟩ := h.exists_roundings hs (by omega)
    exact hstop.unsigned
  · rintro ⟨p, rfl⟩
    have hp : p ≤ 40 := (Nat.pow_le_pow_iff_right one_lt_two).mp hd
    obtain ⟨hround, -⟩ := isRounding_gridStep (Nat.two_pow_pos p) hstep
    have hpart : (1 : ℚ) / (2 ^ p : Nat) * 2 ^ p = (1 : Nat) := by
      push_cast
      field_simp
    have hvalue := (hround.exact hpart (by omega) (by omega)).2
    rw [← hvalue, Nat.cast_one] at hpart
    exact_mod_cast h.stop_exact hs hpart hp hlast

end Ends

section Tracks

variable {step : Binary64} {ts tracks : List BeatTrack} {d : Nat}

/-- The notes of all tracks are moved to the grid, and there are no others on it. -/
theorem mem_onGrid (hs : IsStep step d) (hspaced : ∀ t ∈ ts, Spaced step t.notes)
    (h : ts.mapM (·.onGrid step) = .ok tracks) :
    (∀ t ∈ ts, ∀ n ∈ t.notes, ∃ g ∈ tracks, ∃ m ∈ g.notes, n.onGrid step = .ok m) ∧
      ∀ g ∈ tracks, ∀ m ∈ g.notes, ∃ t ∈ ts, ∃ n ∈ t.notes, n.onGrid step = .ok m := by
  have hall := (List.forall₂_and_left _ _).mpr ⟨hspaced, mapM_eq_ok.mp h⟩
  constructor
  · intro t ht n hn
    obtain ⟨g, hg, hspaced, hgrid⟩ := exists_of_forall₂_right hall.flip ht
    obtain ⟨moved, hmoved, hperm, -⟩ := BeatTrack.onGrid_moved hs hspaced.lasting hgrid
    obtain ⟨m, hm, hnm⟩ := exists_of_forall₂_right (mapM_eq_ok.mp hmoved).flip hn
    exact ⟨g, hg, m, hperm.mem_iff.mpr hm, hnm⟩
  · intro g hg m hm
    obtain ⟨t, ht, hspaced, hgrid⟩ := exists_of_forall₂_right hall hg
    obtain ⟨moved, hmoved, hperm, -⟩ := BeatTrack.onGrid_moved hs hspaced.lasting hgrid
    obtain ⟨n, hn, hnm⟩ := exists_of_forall₂_right (mapM_eq_ok.mp hmoved) (hperm.mem_iff.mp hm)
    exact ⟨t, ht, n, hn, hnm⟩

/-- The steps at which the notes of some tracks end. -/
def lastSteps (step : Binary64) (ts : List BeatTrack) : Set Int :=
  {e | ∃ t ∈ ts, ∃ n ∈ t.notes, n.lastStep step = .ok e}

theorem exists_isGreatest_lastSteps (h : ts.mapM (·.onGrid step) = .ok tracks)
    {t : BeatTrack} (ht : t ∈ ts) (hne : t.notes ≠ []) : ∃ e, IsGreatest (lastSteps step ts) e := by
  have hfinite : (lastSteps step ts).Finite := by
    refine (List.finite_toSet ((ts.flatMap BeatTrack.notes).filterMap fun n =>
      (n.lastStep step).toOption)).subset ?_
    rintro e ⟨t, ht, n, hn, he⟩
    exact List.mem_filterMap.mpr ⟨n, List.mem_flatMap.mpr ⟨t, ht, hn⟩, by rw [he]; rfl⟩
  refine BddAbove.exists_isGreatest_of_nonempty hfinite.bddAbove ?_
  obtain ⟨n, hn⟩ := List.exists_mem_of_ne_nil _ hne
  obtain ⟨g, -, hgrid⟩ := exists_of_forall₂_right (mapM_eq_ok.mp h).flip ht
  simp only [BeatTrack.onGrid, notesOnGrid, bind_eq_ok, pure_eq_ok] at hgrid
  obtain ⟨_, ⟨moved, hmoved, -⟩, -⟩ := hgrid
  obtain ⟨m, -, hm⟩ := exists_of_forall₂_right (mapM_eq_ok.mp hmoved).flip hn
  obtain ⟨k, hmove⟩ := BeatNote.onGrid_moved hm
  obtain ⟨e, hstop⟩ := hmove.stop_falls
  exact ⟨_, t, ht, n, hn, n.lastStep_eq hmove.falls hstop⟩

/-- Every note on the grid ends at a step, and one of them at the last step. -/
theorem exists_endsAt {last : Int} (hs : IsStep step d) (hstep : gridStep (.whole d) = .ok step)
    (hd : d ≤ 2 ^ 40) (hspaced : ∀ t ∈ ts, Spaced step t.notes)
    (h : ts.mapM (·.onGrid step) = .ok tracks) (hlast : IsGreatest (lastSteps step ts) last)
    (hsize : last ≤ 2 ^ 40) : (∀ g ∈ tracks, ∀ m ∈ g.notes, ∃ e ≤ last, m.EndsAt d e) ∧
      ∃ g ∈ tracks, ∃ m ∈ g.notes, m.EndsAt d last := by
  obtain ⟨hto, hfrom⟩ := mem_onGrid hs hspaced h
  have hends : ∀ t ∈ ts, ∀ n ∈ t.notes, ∀ m, n.onGrid step = .ok m →
      ∃ e ≤ last, n.lastStep step = .ok e ∧ m.EndsAt d e := by
    intro t ht n hn m hm
    obtain ⟨k, e, he, hsnapped⟩ := ((hspaced t ht).lasting n hn).snapped hs hm
    have hle := hlast.2 ⟨t, ht, n, hn, he⟩
    exact ⟨_, hle, he, hsnapped.endsAt hs hstep hd (by omega)⟩
  constructor
  · intro g hg m hm
    obtain ⟨t, ht, n, hn, hnm⟩ := hfrom g hg m hm
    obtain ⟨e, hle, -, hend⟩ := hends t ht n hn m hnm
    exact ⟨e, hle, hend⟩
  · obtain ⟨t, ht, n, hn, hnlast⟩ := hlast.1
    obtain ⟨g, hg, m, hm, hnm⟩ := hto t ht n hn
    obtain ⟨e, -, he, hend⟩ := hends t ht n hn m hnm
    obtain rfl := Except.ok.inj (hnlast.symm.trans he)
    exact ⟨g, hg, m, hm, hend⟩

/-- The end of a piece is as near to its last step as the ends of its notes are to theirs. -/
theorem totalBeats_near {last : Int} {ε : ℚ} (hstops : ∀ g ∈ tracks, ∀ m ∈ g.notes, m.stop.Unsigned)
    (hf : (totalBeats tracks).isFinite)
    (hle : ∀ g ∈ tracks, ∀ m ∈ g.notes, m.stop.value * d ≤ last + ε)
    (hge : ∃ g ∈ tracks, ∃ m ∈ g.notes, last - ε ≤ m.stop.value * d) :
    |(totalBeats tracks).value * d - last| ≤ ε := by
  obtain ⟨g, hg, m, hm, hlast⟩ := hge
  have hstop := (totalBeats_bounds hstops).2 hf g hg m hm
  have hmem : m.stop ∈ tracks.flatMap fun t => t.notes.map BeatNote.stop :=
    List.mem_flatMap.mpr ⟨g, hg, List.mem_map_of_mem hm⟩
  obtain ⟨g', hg', htotal⟩ := List.mem_flatMap.mp (largest_mem (List.ne_nil_of_mem hmem))
  obtain ⟨m', hm', heq⟩ := List.mem_map.mp htotal
  have hhigh := hle g' hg' m' hm'
  have hlow := mul_le_mul_of_nonneg_right hstop.2 (Nat.cast_nonneg (α := ℚ) d)
  rw [heq] at hhigh
  change (totalBeats tracks).value * d ≤ _ at hhigh
  refine abs_le.mpr ⟨?_, ?_⟩
  · linarith
  · linarith

end Tracks

section Counting

variable {total : Binary64} {q : Quantity} {v : ℚ} {d w : Nat} {last needed bars : Int}

/-- The least number of bars, at least one, that have a number of steps. -/
def IsNeeded (v : ℚ) (d : Nat) (last needed : Int) : Prop :=
  IsLeast {b : Int | 1 ≤ b ∧ (last : ℚ) ≤ b * v * d} needed

theorem exists_isNeeded (hv : 1 ≤ v) (hd : 1 ≤ d) (last : Int) : ∃ b, IsNeeded v d last b := by
  have hpos : 0 < v * d := mul_pos (by linarith) (by exact_mod_cast hd)
  refine ⟨max 1 ⌈last / (v * d)⌉, ⟨le_max_left _ _, ?_⟩, fun b ⟨hone, hb⟩ => ?_⟩
  · rw [mul_assoc, ← div_le_iff₀ hpos]
    exact Int.ceil_le.mp (le_max_right _ _)
  · refine max_le hone (Int.ceil_le.mpr ?_)
    rwa [div_le_iff₀ hpos, ← mul_assoc]

/-- Numbers of 128th parts are a part apart. -/
theorem add_part_le {a b : ℚ} {i j : Int} (ha : a * 2 ^ 7 = i) (hb : b * 2 ^ 7 = j) (h : a < b) :
    a + 1 / 2 ^ 7 ≤ b := by
  have hlt : (i : ℚ) < j := by linarith
  have hle : (i : ℚ) + 1 ≤ j := by exact_mod_cast hlt
  linarith

theorem steps_parts (last : Int) : (last : ℚ) * 2 ^ 7 = (last * 2 ^ 7 : Int) := by
  push_cast
  rfl

theorem bars_parts (hw : v * 2 ^ 7 = w) (b : Nat) : b * v * d * 2 ^ 7 = (b * w * d : Int) := by
  push_cast
  rw [← hw]
  ring

/-- A bar less than is needed ends before the last step. -/
theorem IsNeeded.add_part_le {b : Nat} (h : IsNeeded v d last (b + 1 : Nat))
    (hw : v * 2 ^ 7 = w) (hb : 1 ≤ b) : b * v * d + 1 / 2 ^ 7 ≤ (last : ℚ) := by
  refine Midi.add_part_le (bars_parts hw b) (steps_parts last) ?_
  by_contra hnot
  have hmem : (b : Int) ∈ {c : Int | 1 ≤ c ∧ (last : ℚ) ≤ c * v * d} :=
    ⟨by omega, by rw [Int.cast_natCast]; exact not_lt.mp hnot⟩
  have hle := h.2 hmem
  omega

section Quotient

variable {y : Binary64} {b : Nat}
variable (hround : IsRounding y (total.value / v)) (hv : 1 ≤ v) (hd : 1 ≤ d)

include hround hv hd

theorem quotient_le (hb : b ≤ 2 ^ 53) (hle : total.value * d ≤ b * v * d) : y.value ≤ b := by
  have hdq : (0 : ℚ) < d := by exact_mod_cast hd
  have hbeats := le_of_mul_le_mul_right hle hdq
  exact hround.le_natCast ((div_le_iff₀ (by linarith)).mpr hbeats) hb

theorem lt_quotient (hy : y.isFinite) (hb : 1 ≤ b) (hsize : total.value * d ≤ 2 ^ 41)
    (hle : b * v * d + 1 / 2 ^ 8 ≤ total.value * d) : b < y.value := by
  have hdq : (0 : ℚ) < d := by exact_mod_cast hd
  have hpos : 0 < v * d := mul_pos (by linarith) hdq
  have hcount : total.value / v * (v * d) = total.value * d := by
    have hne : v ≠ 0 := by linarith
    field_simp
  have hbq : (1 : ℚ) ≤ b := by exact_mod_cast hb
  have hratio : (b : ℚ) ≤ total.value / v := by
    refine le_of_mul_le_mul_right ?_ hpos
    rw [hcount]
    linarith
  refine lt_of_lt_of_le ?_ (hround.mul_le_value hy (by linarith))
  refine lt_of_mul_lt_mul_right ?_ hpos.le
  calc b * (v * d) < total.value * d * (1 - 1 / 2 ^ 53) := by linarith
    _ = total.value / v * (1 - 1 / 2 ^ 53) * (v * d) := by
      rw [← hcount]
      ring

end Quotient

/-- What is counted if the end of a piece is near to its last step: never a bar less than are
needed, and not more than one more. -/
theorem barCount_of_near (hq : BarLength q v) (hw : v * 2 ^ 7 = w) (hd : 1 ≤ d)
    (hneeded : IsNeeded v d last needed) (hsize : needed * v * d ≤ 2 ^ 40) (ht : total.Unsigned)
    (hnear : |total.value * d - last| ≤ 1 / 2 ^ 8) (h : barCount total q = .ok bars) :
    (needed ≤ bars ∧ bars ≤ needed + 1) ∧
      (∃ y, q.divides total = .ok y ∧ (bars = needed ↔ y.value ≤ needed)) ∧
      ((last : ℚ) ≠ needed * v * d ∨ total.value * d = last → bars = needed) := by
  obtain ⟨y, hdivides, ⟨-, hy⟩, hround, hbars⟩ := barCount_eq_ok hq ht h
  have hv := hq.one_le
  have hbar : 1 ≤ v * d := one_le_mul_of_one_le_of_one_le hv (by exact_mod_cast hd)
  have hone := hneeded.1.1
  obtain ⟨b, rfl⟩ : ∃ b : Nat, needed = (b + 1 : Nat) := ⟨(needed - 1).toNat, by omega⟩
  have hheld := hneeded.1.2
  rw [Int.cast_natCast] at hheld hsize ⊢
  have hsmall : b + 1 ≤ 2 ^ 40 := by
    have hle : ((b + 1 : Nat) : ℚ) ≤ 2 ^ 40 :=
      (le_mul_of_one_le_right (Nat.cast_nonneg _) hbar).trans (by rwa [← mul_assoc])
    exact_mod_cast hle
  have hceil : ∀ c : Nat, 1 ≤ c → (bars ≤ c ↔ y.value ≤ c) := fun c hc => by
    rw [hbars, max_le_iff, Int.ceil_le, and_iff_right (by exact_mod_cast hc), Int.cast_natCast]
  obtain ⟨hlow, hhigh⟩ := abs_le.mp hnear
  have hbelow : ((b + 1 : Nat) : Int) ≤ bars := by
    rcases Nat.eq_zero_or_pos b with rfl | hb
    · exact hbars ▸ le_max_left 1 _
    · have hapart := hneeded.add_part_le hw hb
      have hcounted := lt_quotient hround hv hd hy hb (by linarith) (by linarith)
      have hnot := mt (hceil b hb).mp (not_le.mpr hcounted)
      omega
  refine ⟨⟨hbelow, ?_⟩, ⟨y, hdivides, ?_⟩, fun hexact => ?_⟩
  · have hnext : total.value * d ≤ (b + 2 : Nat) * v * d := by
      push_cast at hheld ⊢
      linarith
    exact (hceil (b + 2) (by omega)).mpr (quotient_le hround hv hd (by omega) hnext)
  · rw [← hceil (b + 1) (by omega)]
    omega
  · have hle : total.value * d ≤ (b + 1 : Nat) * v * d := by
      rcases hexact with hne | hexact
      · have hapart := add_part_le (steps_parts last) (bars_parts hw (b + 1))
          (lt_of_le_of_ne hheld hne)
        linarith
      · rwa [hexact]
    have hquot := quotient_le hround hv hd (by omega) hle
    exact le_antisymm ((hceil (b + 1) (by omega)).mpr hquot) hbelow

end Counting

/-- The bars of a piece on the grid, of which `needed` hold its last step. There is at most one
more, and none unless the last note ends at a bar line and steps are rounded. -/
structure BeatScore.CountsBars (score : BeatScore) (v : ℚ) (d : Nat) (last needed : Int) :
    Prop where
  needed_le : needed ≤ score.bars
  le_needed : score.bars ≤ needed + 1
  eq_iff : ∃ x, score.beatsPerBar.divides score.totalBeats = .ok x ∧
    (score.bars = needed ↔ x.value ≤ needed)
  eq_of_ne : (last : ℚ) ≠ needed * v * d → score.bars = needed
  eq_of_two_pow : (∃ p, d = 2 ^ p) → score.bars = needed

theorem one_le_of_atLeastOne {q : Quantity} {d : Nat} (h : q.atLeastOne = .whole d) : 1 ≤ d := by
  cases q with
  | whole n =>
    have hmax := Quantity.whole.inj h
    omega
  | real x =>
    rw [Quantity.atLeastOne] at h
    split at h
    · cases h
    · have hone := Quantity.whole.inj h
      omega

theorem Score.inBeats_sounding {score : Score} {filename : String} {options : ImportOptions}
    {beats : BeatScore} {notices : List Notice} {reports : List TrackReport}
    (h : score.inBeats filename options = .ok (beats, notices, reports)) :
    ∃ t ∈ beats.tracks, t.notes ≠ [] := by
  obtain ⟨-, hkeeps⟩ := Score.inBeats_eq_ok h
  obtain ⟨b, hb⟩ := List.exists_mem_of_ne_nil _ (Score.inBeats_ne_nil h)
  obtain ⟨t, ht, hlabels⟩ := exists_of_forall₂_right hkeeps hb
  have hnotes : t.notes ≠ [] := by simpa using List.of_mem_filter ht
  refine ⟨b, hb, fun hempty => hnotes ?_⟩
  have hperm := hlabels.labels_perm
  rw [hempty] at hperm
  exact List.map_eq_nil_iff.mp hperm.nil_eq.symm

/-- The end of a piece is near to its last step, and on it if steps are exact. -/
theorem totalBeats_endsAt {tracks : List BeatTrack} {d : Nat} {last : Int}
    (hall : ∀ g ∈ tracks, ∀ m ∈ g.notes, ∃ e ≤ last, m.EndsAt d e)
    (hlast : ∃ g ∈ tracks, ∃ m ∈ g.notes, m.EndsAt d last) (hf : (totalBeats tracks).isFinite) :
    |(totalBeats tracks).value * d - last| ≤ 1 / 2 ^ 8 ∧
      ((∃ p, d = 2 ^ p) → (totalBeats tracks).value * d = last) := by
  have hstops : ∀ g ∈ tracks, ∀ m ∈ g.notes, m.stop.Unsigned := by
    intro g hg m hm
    obtain ⟨e, -, hend⟩ := hall g hg m hm
    exact hend.unsigned
  obtain ⟨g, hg, m, hm, hend⟩ := hlast
  constructor
  · refine totalBeats_near hstops hf (fun g hg m hm => ?_) ⟨g, hg, m, hm, ?_⟩
    · obtain ⟨e, hle, hend⟩ := hall g hg m hm
      have hle' : (e : ℚ) ≤ last := by exact_mod_cast hle
      linarith [le_of_abs_le hend.near]
    · linarith [neg_le_of_abs_le hend.near]
  · intro hd
    have hzero := totalBeats_near (d := d) (ε := 0) hstops hf (fun g hg m hm => ?_)
      ⟨g, hg, m, hm, by rw [hend.exact hd, sub_zero]⟩
    · exact sub_eq_zero.mp (abs_nonpos_iff.mp hzero)
    · obtain ⟨e, hle, hend⟩ := hall g hg m hm
      rw [hend.exact hd, add_zero]
      exact_mod_cast hle

/-- The bars of a score on a grid of a whole number of steps a beat. -/
theorem Score.import_countsBars {score : Score} {filename : String} {options : ImportOptions}
    {beats gridded : BeatScore} {notices : List Notice} {reports : List TrackReport} {d : Nat}
    (hd : options.division.atLeastOne = .whole d) (hread : score.Readable)
    (hbeats : score.inBeats filename options = .ok (beats, notices, reports))
    (hgrid : beats.onGrid options = .ok gridded) :
    ∃ step last needed, gridStep options.division = .ok step ∧
      IsGreatest (lastSteps step beats.tracks) last ∧
      IsNeeded (meterBeats beats.numerator beats.denominator) d last needed ∧
      (needed * meterBeats beats.numerator beats.denominator * d ≤ 2 ^ 40 →
        gridded.CountsBars (meterBeats beats.numerator beats.denominator) d last needed) := by
  obtain ⟨hq, w, hw⟩ := Score.inBeats_meter hread.dyadic hbeats
  obtain ⟨t, ht, hne⟩ := Score.inBeats_sounding hbeats
  simp only [BeatScore.onGrid, bind_eq_ok, pure_eq_ok] at hgrid
  obtain ⟨step, hstep, tracks, htracks, bars, hbars, rfl⟩ := hgrid
  generalize meterBeats beats.numerator beats.denominator = v at *
  have hone := one_le_of_atLeastOne hd
  have hwhole : gridStep (.whole d) = .ok step := by rw [← hd, gridStep_atLeastOne, hstep]
  obtain ⟨last, hlast⟩ := exists_isGreatest_lastSteps htracks ht hne
  obtain ⟨needed, hneeded⟩ := exists_isNeeded hq.one_le hone last
  refine ⟨step, last, needed, hstep, hlast, hneeded, fun hsize => ?_⟩
  have hneededOne : (1 : ℚ) ≤ needed := by exact_mod_cast hneeded.1.1
  have hd' : d ≤ 2 ^ 40 := by
    have hle : (d : ℚ) ≤ needed * v * d := le_mul_of_one_le_left (Nat.cast_nonneg d)
      (one_le_mul_of_one_le_of_one_le hneededOne hq.one_le)
    exact_mod_cast hle.trans hsize
  have hlast' : last ≤ 2 ^ 40 := by exact_mod_cast hneeded.1.2.trans hsize
  have hs : IsStep step d := isStep_gridStep hone (by omega) hwhole
  have hlow := hs.le_value
  have hspaced := Score.inBeats_spaced hs.unsigned (by linarith) hstep hread.sounds hbeats
  obtain ⟨hall, hend⟩ := exists_endsAt hs hwhole hd' hspaced htracks hlast hlast'
  obtain ⟨hunsigned, -⟩ := totalBeats_bounds fun g hg m hm => by
    obtain ⟨e, -, hend⟩ := hall g hg m hm
    exact hend.unsigned
  have hf := (barCount_bounds hq hunsigned hbars).1
  obtain ⟨hnear, hexact⟩ := totalBeats_endsAt hall hend hf
  obtain ⟨⟨hle, hle'⟩, hquot, heq⟩ :=
    barCount_of_near hq hw hone hneeded hsize hunsigned hnear hbars
  exact ⟨hle, hle', hquot, fun hne => heq (.inl hne), fun hp => heq (.inr (hexact hp))⟩

section Single

/-- A track of one note. -/
def oneNote (start duration : Int) : TickTrack where
  index := 0
  name := "Lead"
  notes := [⟨60, velocityShare 100, start, duration, some 0, none⟩]

/-- That note in beats. -/
def inBeatsAt (start duration : Binary64) : BeatNote :=
  ⟨60, velocityShare 100, start, duration, some 0, none⟩

theorem oneNote_readable {ticksPerBeat start duration : Int} (h : 0 ≤ start) (hd : 0 < duration) :
    (single ticksPerBeat (oneNote start duration)).Readable := by
  refine ⟨⟨4, 2, by decide, by decide, rfl⟩, fun t ht n hn => ?_⟩
  obtain rfl := List.mem_singleton.mp ht
  obtain rfl := List.mem_singleton.mp hn
  exact ⟨h, hd⟩

theorem isGreatest_lastSteps_singleton {track : TickTrack} {n : BeatNote} {step : Binary64}
    {e : Int} (h : n.lastStep step = .ok e) :
    IsGreatest (lastSteps step [track.melodic [n]]) e := by
  refine ⟨⟨_, List.mem_singleton_self _, n, List.mem_singleton_self n, h⟩, ?_⟩
  rintro e' ⟨t, ht, n', hn, he⟩
  obtain rfl := List.mem_singleton.mp ht
  obtain rfl := List.mem_singleton.mp hn
  exact (Except.ok.inj (he.symm.trans h)).le

/-- A score in common time ends at a step of its grid, and so many bars are counted for it. -/
def Score.Counts (score : Score) (d : Nat) (last bars : Int) : Prop :=
  ∃ beats notices reports gridded step,
    score.inBeats "lead.mid" (wholeGrid d) = .ok (beats, notices, reports) ∧
    beats.onGrid (wholeGrid d) = .ok gridded ∧ gridStep (wholeGrid d).division = .ok step ∧
    IsGreatest (lastSteps step beats.tracks) last ∧
    meterBeats beats.numerator beats.denominator = 4 ∧ gridded.bars = bars

theorem oneNote_counts (bars : Int) {d : Nat} {ticksPerBeat start duration last bars' : Int}
    {n m : BeatNote} {step : Binary64} (hticks : 0 < ticksPerBeat)
    (hstep : gridStep (.whole d) = .ok step)
    (hbeats : (oneNote start duration).notes.mapM (·.inBeats ticksPerBeat step) = .ok [n])
    (hn : n.start.isNan = false) (hrepaired : repairFrom step [] [n] = ([n], 0))
    (hbars : barCount n.stop (.real 4) = .ok bars) (hlast : n.lastStep step = .ok last)
    (hmoved : n.onGrid step = .ok m) (hm : m.start.isNan = false)
    (hbars' : barCount m.stop (.real 4) = .ok bars') :
    (single ticksPerBeat (oneNote start duration)).Counts d last bars' := by
  have hsorted : ∀ n : BeatNote, n.start.isNan = false → sortNotes [n] = [n] := fun n hn =>
    sortNotes_of_sorted (List.forall_mem_singleton.mpr hn) (List.pairwise_singleton _ n)
  have hfew : (oneNote start duration).notes.length ≤ 100000 := Nat.le_add_left 1 99999
  have hrole : dominant [some 0] ≠ some drumChannel := by decide
  obtain ⟨beats, notices, reports, gridded, hinBeats, hgrid, htracks, -, hcounted, -⟩ :=
    single_stages hticks rfl hfew hrole hstep hbeats (hsorted n hn) hrepaired hbars
      (bind_eq_ok.mpr ⟨m, hmoved, rfl⟩) (hsorted m hm) hbars'
  obtain ⟨hnumerator, hdenominator⟩ : beats.numerator = 4 ∧ beats.denominator = 4 :=
    (Score.inBeats_meter_eq hinBeats).2
  refine ⟨beats, notices, reports, gridded, step, hinBeats, hgrid, hstep, ?_, ?_, hcounted⟩
  · rw [htracks]
    exact isGreatest_lastSteps_singleton hlast
  · rw [hnumerator, hdenominator]
    norm_num [meterBeats]

theorem isNeeded_of_lt {d : Nat} {last needed : Int} (hone : 1 ≤ needed)
    (h : (needed - 1) * 4 * d < last) (h' : last ≤ needed * 4 * d) : IsNeeded 4 d last needed := by
  refine ⟨⟨hone, by exact_mod_cast h'⟩, fun b ⟨_, hb⟩ => ?_⟩
  have hle : last ≤ b * 4 * d := by exact_mod_cast hb
  by_contra hnot
  have hbars : b * 4 ≤ (needed - 1) * 4 := by omega
  have := mul_le_mul_of_nonneg_right hbars (Int.natCast_nonneg d)
  omega

/-- A note that ends a twentieth of a beat before a bar line. -/
theorem oneNote_countsBars : ∃ beats notices reports gridded step,
    (wholeGrid 20).division.atLeastOne = .whole (20 : Nat) ∧
    (single 20 (oneNote 238 1)).Readable ∧
    (single 20 (oneNote 238 1)).inBeats "lead.mid" (wholeGrid 20) =
      .ok (beats, notices, reports) ∧
    beats.onGrid (wholeGrid 20) = .ok gridded ∧ gridStep (wholeGrid 20).division = .ok step ∧
    IsGreatest (lastSteps step beats.tracks) 239 ∧
    IsNeeded (meterBeats beats.numerator beats.denominator) (20 : Nat) 239 3 ∧
    ((3 : Int) : ℚ) * meterBeats beats.numerator beats.denominator * (20 : Nat) ≤ 2 ^ 40 ∧
    gridded.CountsBars (meterBeats beats.numerator beats.denominator) 20 239 3 ∧
    gridded.bars = 3 := by
  have hmoved : (inBeatsAt 11.9 0.05).onGrid 0.05 =
      .ok (inBeatsAt (238 * 0.05) (Binary64.larger 0.05 (239 * 0.05 - 238 * 0.05))) := by
    decide +kernel
  have hcounts : (single 20 (oneNote 238 1)).Counts 20 239 3 :=
    oneNote_counts 3 (by decide) (by decide +kernel) (by decide +kernel)
      (by decide +kernel) (by decide +kernel) (by decide +kernel) (by decide +kernel) hmoved
      (by decide +kernel) (by decide +kernel)
  obtain ⟨beats, notices, reports, gridded, step, hbeats, hgrid, hstep, hlast, hmeter, hbars⟩ :=
    hcounts
  have hread : (single 20 (oneNote 238 1)).Readable := oneNote_readable (by decide) (by decide)
  have hneeded : IsNeeded 4 (20 : Nat) 239 3 :=
    isNeeded_of_lt (by decide) (by decide) (by decide)
  rw [← hmeter] at hneeded
  obtain ⟨step', last, needed, hstep', hlast', hneeded', hcountsBars⟩ :=
    Score.import_countsBars (d := 20) rfl hread hbeats hgrid
  obtain rfl := Except.ok.inj (hstep'.symm.trans hstep)
  obtain rfl := hlast'.unique hlast
  obtain rfl := hneeded'.unique hneeded
  have hsize : ((3 : Int) : ℚ) * meterBeats beats.numerator beats.denominator * (20 : Nat) ≤
      2 ^ 40 := by
    rw [hmeter]
    norm_num
  exact ⟨beats, notices, reports, gridded, step', rfl, hread, hbeats, hgrid, hstep, hlast,
    hneeded, hsize, hcountsBars hsize, hbars⟩

/-- Two notes that end at a bar line, or so near to it that they fall on the step there. By
twentieths of a beat the end is rounded to a number above it, and a bar is counted that is not
needed; where the steps are too many to be told apart, there is a bar less than their number
needs. -/
theorem oneNote_miscounted :
    ((single 20 (oneNote 239 1)).Readable ∧ (single 20 (oneNote 239 1)).Counts 20 240 4 ∧
      IsNeeded 4 (20 : Nat) 240 3) ∧
    (single 1 (oneNote 0 4)).Readable ∧
      (single 1 (oneNote 0 4)).Counts (2 ^ 53 + 3) (2 ^ 55 + 16) 1 ∧
      IsNeeded 4 (2 ^ 53 + 3 : Nat) (2 ^ 55 + 16) 2 := by
  have hmoved : (inBeatsAt 11.95 0.05).onGrid 0.05 =
      .ok (inBeatsAt (239 * 0.05) (Binary64.larger 0.05 (240 * 0.05 - 239 * 0.05))) := by
    decide +kernel
  have hfine : gridStep (.whole (2 ^ 53 + 3 : Nat)) = .ok (ofFraction false 1 (2 ^ 53 + 3)) := by
    decide +kernel
  have hmoved' : (inBeatsAt 0 4).onGrid (ofFraction false 1 (2 ^ 53 + 3)) =
      .ok (inBeatsAt 0 4) := by
    decide +kernel
  refine ⟨⟨oneNote_readable (by decide) (by decide), ?_, ?_⟩,
    oneNote_readable (by decide) (by decide), ?_, ?_⟩
  · exact oneNote_counts 3 (by decide) (by decide +kernel) (by decide +kernel)
      (by decide +kernel) (by decide +kernel) (by decide +kernel) (by decide +kernel) hmoved
      (by decide +kernel) (by decide +kernel)
  · exact isNeeded_of_lt (by decide) (by decide) (by decide)
  · exact oneNote_counts 1 (by decide) hfine (by decide +kernel)
      (by decide +kernel) (by decide +kernel) (by decide +kernel) (by decide +kernel) hmoved'
      (by decide +kernel) (by decide +kernel)
  · exact isNeeded_of_lt (by decide) (by decide) (by decide)

end Single

end Midi
end PatternLoom
