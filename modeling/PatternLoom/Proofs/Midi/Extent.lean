import PatternLoom.Proofs.Decimal.Rounded
import PatternLoom.Proofs.Midi.Spacing

/-! How many steps the bars of a piece have. They hold every note on the grid, so no note begins
behind the last step as long as the steps are not too many to be counted. -/

namespace PatternLoom
namespace Midi

open Binary64

/-- The number of beats in a bar: one, or a number that is not less. -/
structure BarLength (q : Quantity) (v : ℚ) : Prop where
  one_le : 1 ≤ v
  kind : q = .whole 1 ∧ v = 1 ∨ ∃ x, q = .real x ∧ x.Unsigned ∧ x.isFinite ∧ x.value = v

theorem ofInt_one : ofInt 1 = .ok 1 := by decide +kernel

theorem BarLength.toReal {q : Quantity} {v : ℚ} (h : BarLength q v) :
    ∃ x, q.toReal = .ok x ∧ x.Unsigned ∧ x.isFinite ∧ x.value = v := by
  rcases h.kind with ⟨rfl, rfl⟩ | ⟨x, rfl, hx⟩
  · exact ⟨1, ofInt_one, unsigned_one, by decide +kernel, value_one⟩
  · exact ⟨x, rfl, hx⟩

theorem Score.barLength {score : Score} {q : Quantity} (h : score.beatsPerBar = .ok q) :
    ∃ v, BarLength q v := by
  simp only [beatsPerBar, bind_eq_ok, pure_eq_ok] at h
  obtain ⟨x, hx, rfl⟩ := h
  have hfinite := isFinite_of_ofQuotient hx
  by_cases hone : 1 < x
  · have hlt := (lt_iff_value (by decide +kernel) hfinite).mp hone
    rw [value_one] at hlt
    rw [Quantity.atLeastOne, if_pos hone]
    exact ⟨x.value, hlt.le, .inr ⟨x, rfl, unsigned_one.of_lt hone, hfinite, rfl⟩⟩
  · rw [Quantity.atLeastOne, if_neg hone]
    exact ⟨1, le_rfl, .inl ⟨rfl, rfl⟩⟩

section Beats

variable {score : Score} {filename : String} {options : ImportOptions} {beats : BeatScore}
variable {notices : List Notice} {reports : List TrackReport}

/-- A score in beats has the meter of the score in ticks. -/
theorem Score.inBeats_meter_eq
    (h : score.inBeats filename options = .ok (beats, notices, reports)) :
    score.beatsPerBar = .ok beats.beatsPerBar ∧ beats.numerator = score.meter.1 ∧
      beats.denominator = score.meter.2 := by
  simp only [inBeats, bind_eq_ok, pure_eq_ok] at h
  obtain ⟨_, _, _, _, q, hq, _, _, _, _, _, _, _, _, hscore⟩ := h
  obtain ⟨rfl, -, -⟩ := hscore
  exact ⟨hq, rfl, rfl⟩

theorem Score.inBeats_barLength
    (h : score.inBeats filename options = .ok (beats, notices, reports)) :
    ∃ v, BarLength beats.beatsPerBar v :=
  Score.barLength (Score.inBeats_meter_eq h).1

end Beats

section Bars

variable {q : Quantity} {v : ℚ} {bars : Int} {total : Binary64}

theorem one_le_barCount (h : barCount total q = .ok bars) : 1 ≤ bars := by
  simp only [barCount, bind_eq_ok, pure_eq_ok] at h
  obtain ⟨_, _, count, _, rfl⟩ := h
  exact le_max_left 1 count

/-- Bars are counted by one quotient, which is rounded once. -/
theorem barCount_eq_ok (hq : BarLength q v) (ht : total.Unsigned)
    (h : barCount total q = .ok bars) : ∃ y, q.divides total = .ok y ∧
      (total.isFinite ∧ y.isFinite) ∧ IsRounding y (total.value / v) ∧
      bars = max 1 ⌈y.value⌉ := by
  obtain ⟨x, hx, hunsigned, hxf, rfl⟩ := hq.toReal
  simp only [barCount, bind_eq_ok, pure_eq_ok] at h
  obtain ⟨y, hdivides, count, hcount, rfl⟩ := h
  obtain ⟨x', hx', hy⟩ := bind_eq_ok.mp hdivides
  obtain rfl := Except.ok.inj (hx.symm.trans hx')
  obtain rfl := quotient_eq hy
  have hfinite := isFinite_of_ceil hcount
  have htf := isFinite_of_div hfinite hxf
  have hone := hq.one_le
  exact ⟨_, hdivides, ⟨htf, hfinite⟩, isRounding_div ht hunsigned htf hxf (by linarith),
    congrArg (max 1) (eq_ceil_value hcount)⟩

/-- The bars hold the beats that they are counted for, but for one rounding. -/
theorem barCount_bounds (hq : BarLength q v) (ht : total.Unsigned)
    (h : barCount total q = .ok bars) :
    total.isFinite ∧ total.value * (1 - 1 / 2 ^ 53) ≤ bars * v := by
  obtain ⟨y, -, ⟨htf, hfinite⟩, hround, hcount⟩ := barCount_eq_ok hq ht h
  have hone := hq.one_le
  have hpos : 0 < v := by linarith
  have hbars : (1 : ℚ) ≤ bars := by exact_mod_cast hcount ▸ le_max_left 1 ⌈y.value⌉
  have hceil : ⌈y.value⌉ ≤ bars := hcount ▸ le_max_right 1 _
  have hy : y.value ≤ bars := Int.ceil_le.mp hceil
  refine ⟨htf, ?_⟩
  have hvalue : total.value / v * v = total.value := div_mul_cancel₀ _ hpos.ne'
  rw [← hvalue]
  generalize total.value / v = ratio at *
  have hratio : ratio * (1 - 1 / 2 ^ 53) ≤ bars := by
    rcases le_or_gt (1 / 2 ^ 100) ratio with hlarge | hsmall
    · obtain ⟨herr, -⟩ := abs_le.mp (hround.abs_sub_le hfinite hlarge)
      linarith
    · linarith
  calc ratio * v * (1 - 1 / 2 ^ 53)
      = ratio * (1 - 1 / 2 ^ 53) * v := by ring
    _ ≤ bars * v := mul_le_mul_of_nonneg_right hratio hpos.le

/-- Four roundings one after the other. -/
theorem mul_mul_le {n x d p px s r : ℚ} (hn : 0 ≤ n) (hx : 0 ≤ x) (hd : 0 ≤ d)
    (hp : n * (1 - 1 / 2 ^ 53) ≤ p) (hpx : p * x * (1 - 1 / 2 ^ 53) ≤ px)
    (hs : d * (1 - 1 / 2 ^ 53) ≤ s) (hr : px * s * (1 - 1 / 2 ^ 53) ≤ r) :
    n * x * d * (1 - 4 / 2 ^ 53) ≤ r := by
  have hpx' : n * (1 - 1 / 2 ^ 53) * x * (1 - 1 / 2 ^ 53) ≤ px :=
    le_trans (mul_le_mul_of_nonneg_right (mul_le_mul_of_nonneg_right hp hx) (by norm_num)) hpx
  have hlow : 0 ≤ n * (1 - 1 / 2 ^ 53) * x * (1 - 1 / 2 ^ 53) :=
    mul_nonneg (mul_nonneg (mul_nonneg hn (by norm_num)) hx) (by norm_num)
  calc n * x * d * (1 - 4 / 2 ^ 53)
      ≤ n * x * d * (1 - 1 / 2 ^ 53) ^ 4 :=
        mul_le_mul_of_nonneg_left (by norm_num) (mul_nonneg (mul_nonneg hn hx) hd)
    _ = n * (1 - 1 / 2 ^ 53) * x * (1 - 1 / 2 ^ 53) * (d * (1 - 1 / 2 ^ 53)) *
          (1 - 1 / 2 ^ 53) := by ring
    _ ≤ px * s * (1 - 1 / 2 ^ 53) :=
        mul_le_mul_of_nonneg_right (mul_le_mul hpx' hs (mul_nonneg hd (by norm_num))
          (hlow.trans hpx')) (by norm_num)
    _ ≤ r := hr

theorem mul_mul_bounds {x p s : Binary64} {n d : Nat} (hx : x.Unsigned) (hxf : x.isFinite)
    (hone : 1 ≤ x.value) (hn : 1 ≤ n) (hd : 1 ≤ d) (hp : ofInt n = .ok p) (hs : ofInt d = .ok s)
    (hf : (p * x * s).isFinite) : (p * x * s).Unsigned ∧
      n * x.value * d * (1 - 4 / 2 ^ 53) ≤ (p * x * s).value := by
  have hp' := isRounding_ofInt hp
  have hs' := isRounding_ofInt hs
  have hpf := isFinite_of_ofInt hp
  have hsf := isFinite_of_ofInt hs
  have hpx := isRounding_mul hp'.unsigned hx hpf hxf
  have hpxf := isFinite_of_mul hf
  have hpxs := isRounding_mul hpx.unsigned hs'.unsigned hpxf hsf
  have hnq : (1 : ℚ) ≤ n := by exact_mod_cast hn
  have hdq : (1 : ℚ) ≤ d := by exact_mod_cast hd
  have hpv := hp'.mul_le_value hpf (by linarith)
  have hsv := hs'.mul_le_value hsf (by linarith)
  have hpxlow : 1 / 2 * 1 ≤ p.value * x.value :=
    mul_le_mul (by linarith) hone (by norm_num) (by linarith)
  have hpxv := hpx.mul_le_value hpxf (by linarith)
  have hpxslow : 1 / 4 * (1 / 2) ≤ (p * x).value * s.value :=
    mul_le_mul (by linarith) (by linarith) (by norm_num) (by linarith)
  have hpxsv := hpxs.mul_le_value hf (by linarith)
  exact ⟨hpxs.unsigned, mul_mul_le (by linarith) (by linarith) (by linarith) hpv hpxv hsv hpxsv⟩

/-- Where a bar is one beat the steps are counted with integers, and else by two rounded products. -/
theorem totalSteps_eq_ok {n d steps : Nat} (hq : BarLength q v)
    (h : totalSteps n q (.whole d) = .ok steps) : ∃ count : Int, steps = (max 1 count).toNat ∧
      (v = 1 ∧ count = n * d ∨ ∃ x p s, (x.Unsigned ∧ x.isFinite ∧ x.value = v) ∧
        (ofInt n = .ok p ∧ ofInt d = .ok s) ∧ wholeSteps (.real (p * x * s)) = .ok count) := by
  simp only [totalSteps, bind_eq_ok, pure_eq_ok] at h
  obtain ⟨a, ha, b, hb, count, hcount, rfl⟩ := h
  refine ⟨count, rfl, ?_⟩
  rcases hq.kind with ⟨rfl, rfl⟩ | ⟨x, rfl, hx⟩
  · obtain rfl := Except.ok.inj ha
    obtain rfl := Except.ok.inj hb
    obtain rfl := Except.ok.inj hcount
    rw [mul_one]
    exact .inl ⟨rfl, rfl⟩
  · simp only [Quantity.mul, Quantity.toReal, bind_eq_ok, pure_eq_ok] at ha
    obtain ⟨p, hp, x', hx', rfl⟩ := ha
    obtain rfl := Except.ok.inj hx'
    simp only [Quantity.mul, Quantity.toReal, bind_eq_ok, pure_eq_ok] at hb
    obtain ⟨px, hpx, s, hs, rfl⟩ := hb
    obtain rfl := Except.ok.inj hpx
    exact .inr ⟨x, p, s, hx, ⟨hp, hs⟩, hcount⟩

theorem totalSteps_bounds {d steps : Nat} (hq : BarLength q v) (hbars : 1 ≤ bars) (hd : 1 ≤ d)
    (h : totalSteps bars q (.whole d) = .ok steps) :
    bars * v * d * (1 - 5 / 2 ^ 53) - 1 / 10 ^ 6 ≤ steps := by
  obtain ⟨n, rfl⟩ := Int.eq_ofNat_of_zero_le (by omega : 0 ≤ bars)
  have hn : 1 ≤ n := by omega
  have hone := hq.one_le
  obtain ⟨count, rfl, hkind⟩ := totalSteps_eq_ok hq h
  have hsteps : (count : ℚ) ≤ ((max 1 count).toNat : Nat) := by
    have hle : count ≤ ((max 1 count).toNat : Nat) := by omega
    exact_mod_cast hle
  refine le_trans ?_ hsteps
  rcases hkind with ⟨rfl, rfl⟩ | ⟨x, p, s, ⟨hx, hxf, rfl⟩, ⟨hp, hs⟩, hcount⟩
  · push_cast
    have hnonneg : (0 : ℚ) ≤ n * 1 * d := by positivity
    linarith
  · have hle := value_le_ceil hcount
    have hfinite := isFinite_of_ceil hcount
    have hf := Decimal.isFinite_of_roundTo 6 hfinite
    obtain ⟨hunsigned, hproduct⟩ := mul_mul_bounds hx hxf hone hn hd hp hs hf
    obtain ⟨w, hw, hrounded⟩ := Decimal.exists_isRounding_roundTo 6 hunsigned hf
    obtain ⟨herr, -⟩ := abs_le.mp (hw.abs_sub_le_add hfinite)
    have hnonneg : 0 ≤ n * x.value * d :=
      mul_nonneg (mul_nonneg (Nat.cast_nonneg n) (by linarith)) (Nat.cast_nonneg d)
    rw [Int.cast_natCast]
    linarith

theorem division_le {d steps : Nat} (hq : BarLength q v) (hbars : 1 ≤ bars) (hd : 1 ≤ d)
    (h : totalSteps bars q (.whole d) = .ok steps) (hsteps : steps ≤ 2 ^ 48) : d ≤ 2 ^ 50 := by
  have hbound := totalSteps_bounds hq hbars hd h
  have hstepsq : (steps : ℚ) ≤ 2 ^ 48 := by exact_mod_cast hsteps
  have hbarsq : (1 : ℚ) ≤ bars := by exact_mod_cast hbars
  have hle : (1 : ℚ) * d ≤ bars * v * d :=
    mul_le_mul_of_nonneg_right (one_le_mul_of_one_le_of_one_le hbarsq hq.one_le)
      (Nat.cast_nonneg d)
  have hdq : (d : ℚ) ≤ 2 ^ 50 := by linarith
  exact_mod_cast hdq

end Bars

theorem largest_bounds {xs : List Binary64} (h : ∀ x ∈ xs, x.Unsigned) :
    (largest xs).Unsigned ∧
      ((largest xs).isFinite → ∀ x ∈ xs, x.isFinite ∧ x.value ≤ (largest xs).value) := by
  cases xs with
  | nil => exact ⟨unsigned_zero, by simp⟩
  | cons x xs =>
    obtain ⟨hx, hxs⟩ := List.forall_mem_cons.mp h
    exact ⟨hx.foldl_larger, foldl_larger_bounds hx hxs⟩

theorem largest_mem {xs : List Binary64} (h : xs ≠ []) : largest xs ∈ xs := by
  cases xs with
  | nil => exact absurd rfl h
  | cons x xs => exact foldl_larger_mem xs x

/-- All notes end by the end of the piece, if it has one. -/
theorem totalBeats_bounds {tracks : List BeatTrack}
    (h : ∀ t ∈ tracks, ∀ n ∈ t.notes, n.stop.Unsigned) : (totalBeats tracks).Unsigned ∧
      ((totalBeats tracks).isFinite → ∀ t ∈ tracks, ∀ n ∈ t.notes,
        n.stop.isFinite ∧ n.stop.value ≤ (totalBeats tracks).value) := by
  have hall : ∀ x ∈ tracks.flatMap fun t => t.notes.map BeatNote.stop, x.Unsigned := by
    intro x hx
    obtain ⟨t, ht, hx⟩ := List.mem_flatMap.mp hx
    obtain ⟨n, hn, rfl⟩ := List.mem_map.mp hx
    exact h t ht n hn
  obtain ⟨hunsigned, hlast⟩ := largest_bounds hall
  exact ⟨hunsigned, fun hf t ht n hn =>
    hlast hf _ (List.mem_flatMap.mpr ⟨t, ht, List.mem_map_of_mem hn⟩)⟩

/-- A note on the grid, the note that it was before and the step to which it was moved. -/
structure BeatNote.MovedTo (step : Binary64) (n m : BeatNote) (k : Int) : Prop where
  falls : FallsOn step n.start k
  stop_falls : ∃ e, FallsOn step n.stop e
  pitch_eq : m.pitch = n.pitch
  start_eq : ∃ x, ofInt k = .ok x ∧ m.start = x * step
  duration_eq : ∃ x, m.duration = step.larger x

section Moved

variable {step : Binary64} {n m : BeatNote} {k : Int} {d steps : Nat}

theorem BeatNote.onGrid_moved (h : n.onGrid step = .ok m) : ∃ k, n.MovedTo step m k := by
  simp only [onGrid, snap, bind_eq_ok, pure_eq_ok] at h
  obtain ⟨_, ⟨q, hq, k, hk, x, hx, rfl⟩, _, ⟨q', hq', e, he, _, _, rfl⟩, rfl⟩ := h
  exact ⟨k, ⟨q, hq, hk⟩, ⟨e, q', hq', he⟩, rfl, ⟨x, hx, rfl⟩, _, rfl⟩

theorem BeatNote.MovedTo.unsigned (h : n.MovedTo step m k) (hs : IsStep step d) (hk : 0 ≤ k) :
    m.start.Unsigned ∧ m.duration.Unsigned := by
  obtain ⟨i, rfl⟩ := Int.eq_ofNat_of_zero_le hk
  obtain ⟨x, hx, hstart⟩ := h.start_eq
  obtain ⟨z, hduration⟩ := h.duration_eq
  have hround := isRounding_ofInt hx
  rw [hstart, hduration]
  exact ⟨(isRounding_mul hround.unsigned hs.unsigned (isFinite_of_ofInt hx) hs.finite).unsigned,
    hs.unsigned.larger⟩

theorem BeatNote.MovedTo.countsIn (h : n.MovedTo step m k) (hs : IsStep step d) (hk : 0 ≤ k)
    (hk' : k ≤ 2 ^ 49) : CountsIn m.start step := by
  obtain ⟨i, rfl⟩ := Int.eq_ofNat_of_zero_le hk
  obtain ⟨x, hx, hstart⟩ := h.start_eq
  rw [hstart]
  exact countsIn_step hs (by omega) hx

/-- A note on the grid ends a step, but for rounding, behind the step it begins on. -/
theorem BeatNote.MovedTo.stop_bounds (h : n.MovedTo step m k) (hs : IsStep step d) (hk : 0 ≤ k)
    (hf : m.stop.isFinite) :
    (k * (1 - 3 / 2 ^ 53) + (1 - 1 / 2 ^ 40)) * step.value ≤ m.stop.value := by
  obtain ⟨hstart, hduration⟩ := h.unsigned hs hk
  obtain ⟨hstartf, hdurationf⟩ := hstart.isFinite_of_add hduration hf
  have hstop := isRounding_add hstart hduration hstartf hdurationf
  obtain ⟨herr, -⟩ := abs_le.mp (hstop.abs_sub_le_add hf)
  obtain ⟨i, rfl⟩ := Int.eq_ofNat_of_zero_le hk
  obtain ⟨x, hx, hxe⟩ := h.start_eq
  obtain ⟨z, hz⟩ := h.duration_eq
  have hround := isRounding_ofInt hx
  have hxf := isFinite_of_ofInt hx
  have hproduct := isRounding_mul hround.unsigned hs.unsigned hxf hs.finite
  rw [hxe] at hstartf
  obtain ⟨hxerr, -⟩ := abs_le.mp (hround.abs_sub_le_add hxf)
  obtain ⟨hperr, -⟩ := abs_le.mp (hproduct.abs_sub_le_add hstartf)
  have hlong : step.value ≤ m.duration.value := by
    rw [hz] at hdurationf ⊢
    exact le_value_larger hs.finite hdurationf
  have hstep := hs.le_value
  have hxs : (i * (1 - 1 / 2 ^ 53) - 1 / 2 ^ 100) * step.value ≤ x.value * step.value :=
    mul_le_mul_of_nonneg_right (by linarith) hs.unsigned.value_nonneg
  rw [Int.cast_natCast]
  change _ ≤ (m.start + m.duration).value
  rw [hxe] at herr ⊢
  have hi : 0 ≤ i * step.value := mul_nonneg (Nat.cast_nonneg i) hs.unsigned.value_nonneg
  linarith

/-- The steps of bars that hold a note go beyond the step on which it begins. -/
theorem BeatNote.MovedTo.lt_totalSteps {q : Quantity} {v : ℚ} {bars : Int} {total : Binary64}
    (h : n.MovedTo step m k) (hs : IsStep step d) (hk : 0 ≤ k) (hq : BarLength q v) (hd : 1 ≤ d)
    (ht : total.Unsigned) (hbars : barCount total q = .ok bars)
    (hsteps : totalSteps bars q (.whole d) = .ok steps) (hle : steps ≤ 2 ^ 48)
    (hf : m.stop.isFinite) (hlast : m.stop.value ≤ total.value) : k < steps := by
  obtain ⟨-, hheld⟩ := barCount_bounds hq ht hbars
  have hcounted := totalSteps_bounds hq (one_le_barCount hbars) hd hsteps
  have hstop := (h.stop_bounds hs hk hf).trans hlast
  obtain ⟨herr, -⟩ := abs_le.mp hs.error
  have hkq : (0 : ℚ) ≤ k := by exact_mod_cast hk
  have hleq : (steps : ℚ) ≤ 2 ^ 48 := by exact_mod_cast hle
  have hbeats : (k * (1 - 3 / 2 ^ 53) + (1 - 1 / 2 ^ 40)) * (step.value * d) * (1 - 1 / 2 ^ 53) ≤
      bars * v * d := by
    have hmul := mul_le_mul_of_nonneg_right
      ((mul_le_mul_of_nonneg_right hstop (by norm_num : (0 : ℚ) ≤ 1 - 1 / 2 ^ 53)).trans hheld)
      (Nat.cast_nonneg d)
    linarith
  have hcount : (k * (1 - 3 / 2 ^ 53) + (1 - 1 / 2 ^ 40)) * (1 - 1 / 2 ^ 53) ≤
      (k * (1 - 3 / 2 ^ 53) + (1 - 1 / 2 ^ 40)) * (step.value * d) :=
    mul_le_mul_of_nonneg_left (by linarith) (by linarith)
  generalize (k * (1 - 3 / 2 ^ 53) + (1 - 1 / 2 ^ 40)) * (step.value * d) = count at *
  generalize bars * v * d = held at *
  have hsmall : (k : ℚ) ≤ 2 ^ 49 := by linarith
  have hlt : (k : ℚ) < steps := by linarith
  exact_mod_cast hlt

end Moved

end Midi
end PatternLoom
