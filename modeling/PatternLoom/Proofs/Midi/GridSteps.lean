import Mathlib
import PatternLoom.Proofs.Binary64.Scaling
import PatternLoom.Proofs.Midi.Escape

/-! On which step of a grid a time falls. The count of steps is rounded twice before it is
rounded to an integer, so a time that falls on a step can be off by half a step and a few parts
in `2^53`; a step itself falls back on itself. -/

namespace PatternLoom

namespace Binary64

theorem value_half : (0.5 : Binary64).value = 1 / 2 := by
  obtain ⟨hhalf, he⟩ := half_eq
  have hpos : (0 : ℚ) < unitsPerHalf := Nat.cast_pos.mpr unitsPerHalf_pos
  have hone : (unitsPerOne : ℚ) = 2 * unitsPerHalf := by exact_mod_cast unitsPerOne_eq
  rw [he, value_finite, hone]
  field_simp

theorem unsigned_half : (0.5 : Binary64).Unsigned := by
  obtain ⟨hhalf, he⟩ := half_eq
  rw [he]
  exact ⟨rfl, rfl⟩

/-- An integer that a number is rounded to is within one half and one part in `2^53`. -/
theorem roundHalfUp_bounds {x : Binary64} {k : Int} (hx : x.Unsigned) (h : x.roundHalfUp = .ok k) :
    x.isFinite ∧ (k : ℚ) ≤ (x.value + 1 / 2) * (1 + 1 / 2 ^ 53) ∧
      (x.value + 1 / 2) * (1 - 1 / 2 ^ 53) < k + 1 := by
  have hfin : x.isFinite := (Midi.settles_roundHalfUp hx.1).of_eq_ok h
  have hsum := isRounding_add hx unsigned_half hfin half_lt.1
  have hsumfin : (x + 0.5).isFinite := by rw [isFinite_add_half hx.1, hfin]
  have hnonneg := hx.value_nonneg
  rw [value_half] at hsum
  obtain ⟨hlow, hhigh⟩ := floor_le_value h
  obtain ⟨herr, herr'⟩ := abs_le.mp (hsum.abs_sub_le hsumfin (by linarith))
  exact ⟨hfin, by linarith, by linarith⟩

end Binary64

namespace Midi

open Binary64

/-- A time falls on a step of a grid. -/
def FallsOn (step x : Binary64) (k : Int) : Prop :=
  ∃ q, x.quotient step = .ok q ∧ q.roundHalfUp = .ok k

section Steps

variable {step x : Binary64} {k : Int}

theorem isFinite_of_div {y : Binary64} (h : (x / y).isFinite) (hy : y.isFinite) : x.isFinite := by
  obtain ⟨b, v, hv, rfl⟩ := exists_finite hy
  cases x with
  | nan => cases h
  | infinity _ => cases h
  | finite _ _ _ => rfl

theorem zero_lt_value (h : step.isZero = false) (hu : step.Unsigned) (hf : step.isFinite) :
    0 < step.value := by
  obtain ⟨u, hr, rfl⟩ := hu.exists_magnitude hf
  have hpos : u ≠ 0 := by
    rintro rfl
    rw [isZero_iff.mpr rfl] at h
    cases h
  rw [value_finite]
  exact div_pos (Nat.cast_pos.mpr (Nat.pos_of_ne_zero hpos)) cast_unitsPerOne_pos

/-- Where a time falls, in the steps it counts exactly. -/
theorem FallsOn.bounds (h : FallsOn step x k) (hs : step.Unsigned) (hsf : step.isFinite)
    (hx : x.Unsigned) : x.isFinite ∧ 0 < step.value ∧
      (k : ℚ) ≤ x.value / step.value * (1 + 3 / 2 ^ 53) + 1 / 2 + 1 / 2 ^ 53 ∧
      x.value / step.value * (1 - 2 / 2 ^ 53) + 1 / 2 - 1 / 2 ^ 53 < k + 1 := by
  obtain ⟨q, hq, hk⟩ := h
  have hzero := (settles_quotient x step).of_eq_ok hq
  have hpos := zero_lt_value hzero hs hsf
  obtain rfl := quotient_eq hq
  have hnan := isNan_div hx.1 hsf hzero
  have hqf : (x / step).isFinite := (settles_roundHalfUp hnan).of_eq_ok hk
  have hxf := isFinite_of_div hqf hsf
  have hround := isRounding_div hx hs hxf hsf hpos
  have hnonneg := hround.nonneg
  obtain ⟨herr, herr'⟩ := abs_le.mp (hround.abs_sub_le_add hqf)
  obtain ⟨-, hlow, hhigh⟩ := roundHalfUp_bounds hround.unsigned hk
  -- As one unknown the ratio is linear in all bounds.
  generalize x.value / step.value = ratio at *
  refine ⟨hxf, hpos, ?_, ?_⟩
  · linarith
  · linarith

theorem FallsOn.nonneg (h : FallsOn step x k) (hs : step.Unsigned) (hsf : step.isFinite)
    (hx : x.Unsigned) : 0 ≤ k := by
  obtain ⟨-, hpos, -, hhigh⟩ := h.bounds hs hsf hx
  have hratio : 0 ≤ x.value / step.value := div_nonneg hx.value_nonneg hpos.le
  have hlt : (-1 : ℚ) < k := by linarith
  have hlt' : (-1 : Int) < k := by exact_mod_cast hlt
  omega

theorem roundHalfUp_mono {y : Binary64} {m : Int} (hx : x.Unsigned) (hy : y.Unsigned)
    (hxf : x.isFinite) (hyf : y.isFinite) (hle : x.value ≤ y.value) (hk : x.roundHalfUp = .ok k)
    (hm : y.roundHalfUp = .ok m) : k ≤ m := by
  have hsum := isRounding_add hx unsigned_half hxf half_lt.1
  have hsum' := isRounding_add hy unsigned_half hyf half_lt.1
  have hsums := hsum.mono hsum' ((isFinite_add_half hx.1).trans hxf)
    ((isFinite_add_half hy.1).trans hyf) (by linarith)
  obtain ⟨hlow, -⟩ := floor_le_value hk
  obtain ⟨-, hhigh⟩ := floor_le_value hm
  have hlt : (k : ℚ) < m + 1 := by linarith
  have hlt' : k < m + 1 := by exact_mod_cast hlt
  omega

/-- A later time does not fall on an earlier step. -/
theorem FallsOn.mono {y : Binary64} {m : Int} (h : FallsOn step x k) (h' : FallsOn step y m)
    (hs : step.Unsigned) (hsf : step.isFinite) (hx : x.Unsigned) (hy : y.Unsigned)
    (hle : x.value ≤ y.value) : k ≤ m := by
  obtain ⟨hxf, hpos, -⟩ := h.bounds hs hsf hx
  obtain ⟨hyf, -⟩ := h'.bounds hs hsf hy
  obtain ⟨q, hq, hk⟩ := h
  obtain ⟨q', hq', hm⟩ := h'
  have hzero := (settles_quotient x step).of_eq_ok hq
  obtain rfl := quotient_eq hq
  obtain rfl := quotient_eq hq'
  have hround := isRounding_div hx hs hxf hsf hpos
  have hround' := isRounding_div hy hs hyf hsf hpos
  have hqf := (settles_roundHalfUp (isNan_div hx.1 hsf hzero)).of_eq_ok hk
  have hqf' := (settles_roundHalfUp (isNan_div hy.1 hsf hzero)).of_eq_ok hm
  exact roundHalfUp_mono hround.unsigned hround'.unsigned hqf hqf'
    (hround.mono hround' hqf hqf' ((div_le_div_iff_of_pos_right hpos).mpr hle)) hk hm

end Steps

/-- One step of a grid of `d` steps a beat, but for one rounding. -/
structure IsStep (step : Binary64) (d : Nat) : Prop where
  unsigned : step.Unsigned
  finite : step.isFinite
  error : |step.value * d - 1| ≤ 1 / 2 ^ 53
  division_le : d ≤ 2 ^ 50

theorem isRounding_gridStep {step : Binary64} {d : Nat} (hd : 1 ≤ d)
    (h : gridStep (.whole d) = .ok step) : IsRounding step (1 / d) ∧ step.isFinite := by
  have hmax : max 1 (d : Int) = d := by omega
  have hquot : ofQuotient (1 : Nat) d = .ok step := by
    rw [gridStep, Quantity.atLeastOne, hmax] at h
    exact h
  have hround := isRounding_ofQuotient (by omega) hquot
  rw [Nat.cast_one] at hround
  exact ⟨hround, isFinite_of_ofQuotient hquot⟩

theorem isStep_gridStep {step : Binary64} {d : Nat} (hd : 1 ≤ d) (hd' : d ≤ 2 ^ 50)
    (h : gridStep (.whole d) = .ok step) : IsStep step d := by
  obtain ⟨hround, hfin⟩ := isRounding_gridStep hd h
  have hdq : (0 : ℚ) < d := by exact_mod_cast hd
  have hdq' : (d : ℚ) ≤ 2 ^ 50 := by exact_mod_cast hd'
  have herr := hround.abs_sub_le hfin (by
    rw [div_le_div_iff₀ (by positivity) hdq]
    linarith)
  refine ⟨hround.unsigned, hfin, ?_, hd'⟩
  have he : step.value * d - 1 = (step.value - 1 / d) * d := by
    field_simp
  rw [he, abs_mul, abs_of_pos hdq]
  calc |step.value - 1 / d| * d ≤ 1 / d / 2 ^ 53 * d := mul_le_mul_of_nonneg_right herr hdq.le
    _ = 1 / 2 ^ 53 := by field_simp

section Counting

variable {step x y : Binary64} {d : Nat} {k m : Int}

theorem FallsOn.count_bounds (h : FallsOn step x k) (hs : IsStep step d) (hx : x.Unsigned) :
    (k : ℚ) ≤ x.value * d * (1 + 5 / 2 ^ 53) + 1 / 2 + 1 / 2 ^ 53 ∧
      x.value * d * (1 - 3 / 2 ^ 53) + 1 / 2 - 1 / 2 ^ 53 < k + 1 := by
  obtain ⟨-, hpos, hlow, hhigh⟩ := h.bounds hs.unsigned hs.finite hx
  obtain ⟨herr, herr'⟩ := abs_le.mp hs.error
  have hratio : 0 ≤ x.value / step.value := div_nonneg hx.value_nonneg hpos.le
  have hcount : x.value * d = x.value / step.value * (step.value * d) := by
    field_simp
  rw [hcount]
  generalize x.value / step.value = ratio at *
  have hle : ratio * (1 - 1 / 2 ^ 53) ≤ ratio * (step.value * d) :=
    mul_le_mul_of_nonneg_left (by linarith) hratio
  have hge : ratio * (step.value * d) ≤ ratio * (1 + 1 / 2 ^ 53) :=
    mul_le_mul_of_nonneg_left (by linarith) hratio
  generalize ratio * (step.value * d) = count at *
  constructor
  · linarith
  · linarith

theorem IsStep.le_value (hs : IsStep step d) : 1 / 2 ^ 51 ≤ step.value := by
  obtain ⟨herr, -⟩ := abs_le.mp hs.error
  have hd : (d : ℚ) ≤ 2 ^ 50 := by exact_mod_cast hs.division_le
  have hle := mul_le_mul_of_nonneg_left hd hs.unsigned.value_nonneg
  linarith

theorem IsStep.one_le (hs : IsStep step d) : (1 : ℚ) ≤ d := by
  obtain ⟨herr, -⟩ := abs_le.mp hs.error
  cases d with
  | zero =>
    rw [Nat.cast_zero, mul_zero] at herr
    norm_num at herr
  | succ d => exact_mod_cast Nat.succ_pos d

theorem IsStep.value_le (hs : IsStep step d) : step.value ≤ 2 := by
  obtain ⟨-, herr⟩ := abs_le.mp hs.error
  have hle := le_mul_of_one_le_right hs.unsigned.value_nonneg hs.one_le
  linarith

theorem isFinite_of_le_two_pow {v : ℚ} (h : IsRounding x v) (hv : v ≤ 2 ^ 100) : x.isFinite := by
  have hlt : (((2 ^ 100 : Nat) : Int)).natAbs * unitsPerOne < overflow :=
    (Nat.mul_le_mul_right _ (by decide)).trans_lt two_pow_mul_unitsPerOne_lt
  obtain ⟨z, hz⟩ := (settles_ofInt _).exists_ok hlt
  refine h.isFinite_of_le (isRounding_ofInt hz) ?_ (isFinite_of_ofInt hz)
  push_cast
  exact hv

theorem IsStep.isRounding_mul (hs : IsStep step d) {n : Nat} (hn : n ≤ 2 ^ 53)
    (hy : ofInt n = .ok y) : IsRounding (y * step) (n * step.value) := by
  have hround := isRounding_ofInt hy
  obtain ⟨hyf, hyv⟩ := hround.exact_natCast hn
  have hproduct := Binary64.isRounding_mul hround.unsigned hs.unsigned hyf hs.finite
  rwa [hyv] at hproduct

/-- A time on a step, but for its rounding, falls on that step. -/
theorem FallsOn.eq_of_step (hs : IsStep step d) {n : Nat} (hn : n ≤ 2 ^ 49)
    (hy : ofInt n = .ok y) (h : FallsOn step (y * step) m) : m = n := by
  have hproduct := hs.isRounding_mul (by omega) hy
  obtain ⟨hfin, hpos, hlow, hhigh⟩ := h.bounds hs.unsigned hs.finite hproduct.unsigned
  obtain ⟨hpe, hpe'⟩ := abs_le.mp (hproduct.abs_sub_le_add hfin)
  have hle := hs.le_value
  have hnq : (n : ℚ) ≤ 2 ^ 49 := by exact_mod_cast hn
  have hvalue : (y * step).value / step.value * step.value = (y * step).value :=
    div_mul_cancel₀ _ hpos.ne'
  generalize (y * step).value / step.value = ratio at *
  rw [← hvalue] at hpe hpe'
  have hratio : ratio ≤ n * (1 + 1 / 2 ^ 53) + 1 / 2 ^ 49 := by
    refine le_of_mul_le_mul_right ?_ hpos
    linarith
  have hratio' : n * (1 - 1 / 2 ^ 53) - 1 / 2 ^ 49 ≤ ratio := by
    refine le_of_mul_le_mul_right ?_ hpos
    linarith
  have hlt : (m : ℚ) < n + 1 := by linarith
  have hlt' : (n : ℚ) < m + 1 := by linarith
  have hint : m < n + 1 := by exact_mod_cast hlt
  have hint' : (n : Int) < m + 1 := by exact_mod_cast hlt'
  omega

/-- A step is where it is on the grid, but for its own rounding and that of one product. -/
theorem IsStep.near (hs : IsStep step d) {n : Nat} (hn : n ≤ 2 ^ 53)
    (h : IsRounding x (n * step.value)) : x.isFinite ∧ |x.value * d - n| ≤ n / 2 ^ 51 := by
  have hnq : (n : ℚ) ≤ 2 ^ 53 := by exact_mod_cast hn
  have hfinite := isFinite_of_le_two_pow h (by
    have := mul_le_mul hnq hs.value_le hs.unsigned.value_nonneg (by norm_num)
    linarith)
  refine ⟨hfinite, ?_⟩
  rcases Nat.eq_zero_or_pos n with rfl | hpos
  · rw [Nat.cast_zero, zero_mul] at h
    have hzero := (h.exact_natCast (n := 0) (Nat.zero_le _)).2
    rw [hzero]
    norm_num
  · have hone : (1 : ℚ) ≤ n := by exact_mod_cast hpos
    have hlow := hs.le_value
    have hdq : (0 : ℚ) ≤ d := Nat.cast_nonneg d
    obtain ⟨hstep, hstep'⟩ := abs_le.mp hs.error
    have hle : (1 : ℚ) * step.value ≤ n * step.value :=
      mul_le_mul_of_nonneg_right hone hs.unsigned.value_nonneg
    obtain ⟨herr, herr'⟩ := abs_le.mp (h.abs_sub_le hfinite (by linarith))
    have hcount := mul_le_mul_of_nonneg_right herr hdq
    have hcount' := mul_le_mul_of_nonneg_right herr' hdq
    have hsteps := mul_le_mul_of_nonneg_left hstep (show (0 : ℚ) ≤ n by linarith)
    have hsteps' := mul_le_mul_of_nonneg_left hstep' (show (0 : ℚ) ≤ n by linarith)
    refine abs_le.mpr ⟨?_, ?_⟩
    · linarith
    · linarith

theorem countsIn_step (hs : IsStep step d) {n : Nat} (hn : n ≤ 2 ^ 49) (hy : ofInt n = .ok y) :
    CountsIn (y * step) step := by
  have hproduct := hs.isRounding_mul (by omega) hy
  obtain ⟨hpf, -⟩ := hs.near (by omega) hproduct
  have hle := hs.le_value
  have hpos : 0 < step.value := by linarith
  have hzero : step.isZero = false := by
    by_contra hnot
    have hunits := units_of_isZero (Bool.eq_true_of_not_eq_false hnot)
    rw [value, hunits, Int.cast_zero, zero_div] at hpos
    exact hpos.false
  have hnq : (n : ℚ) ≤ 2 ^ 49 := by exact_mod_cast hn
  have hcount : n * step.value ≤ 2 ^ 49 * step.value := mul_le_mul_of_nonneg_right hnq hpos.le
  obtain ⟨-, hpe⟩ := abs_le.mp (hproduct.abs_sub_le_add hpf)
  have hquot := isRounding_div hproduct.unsigned hs.unsigned hpf hs.finite hpos
  refine ⟨hzero, isFinite_of_le_two_pow hquot ((div_le_iff₀ hpos).mpr ?_)⟩
  linarith

/-- Two times lie, but for rounding, a step apart and each halfway between two steps. -/
def Straddles (d : Nat) (x y : Binary64) : Prop :=
  ∃ k : Nat, |x.value * d - (k + 1 / 2)| ≤ (k + 1) / 2 ^ 48 ∧
    |y.value * d - (k + 3 / 2)| ≤ (k + 2) / 2 ^ 48

/-- Only halfway times that are a step apart can fall on one step. -/
theorem FallsOn.straddles (hs : IsStep step d) (hx : x.Unsigned) (hy : y.Unsigned)
    (hxm : FallsOn step x m) (hym : FallsOn step y m)
    (happart : (x.value + step.value) * (1 - 1 / 2 ^ 53) ≤ y.value) : Straddles d x y := by
  obtain ⟨hxlow, -⟩ := hxm.count_bounds hs hx
  obtain ⟨-, hyhigh⟩ := hym.count_bounds hs hy
  obtain ⟨herr, -⟩ := abs_le.mp hs.error
  have hxd : 0 ≤ x.value * d := mul_nonneg hx.value_nonneg (Nat.cast_nonneg d)
  have hcounts : (x.value * d + (1 - 1 / 2 ^ 53)) * (1 - 1 / 2 ^ 53) ≤ y.value * d := by
    have hle := mul_le_mul_of_nonneg_right happart (Nat.cast_nonneg d)
    linarith
  unfold Straddles
  generalize x.value * d = count at *
  generalize y.value * d = count' at *
  obtain ⟨n, rfl⟩ := Int.eq_ofNat_of_zero_le (hxm.nonneg hs.unsigned hs.finite hx)
  rw [Int.cast_natCast] at hxlow hyhigh
  cases n with
  | zero =>
    -- A time that is not before zero has its next step beyond the middle of the first one.
    rw [Nat.cast_zero] at hyhigh
    linarith
  | succ k =>
    push_cast at hxlow hyhigh
    have hk : (0 : ℚ) ≤ k := Nat.cast_nonneg k
    refine ⟨k, abs_le.mpr ⟨?_, ?_⟩, abs_le.mpr ⟨?_, ?_⟩⟩ <;> linarith

end Counting

section PowerOfTwo

attribute [local irreducible] unitsPerOne

variable {step x y : Binary64} {j u : Nat} {m n : Int}

/-- The units in one step of a grid of `2 ^ j` steps. -/
def IsPart (j s : Nat) : Prop := 2 ^ j * s = unitsPerOne ∧ Precise s ∧ 52 ≤ s.log2

theorem isPart_two_pow (hj : j ≤ 50) : IsPart j (2 ^ (1074 - j)) := by
  refine ⟨?_, ?_, ?_⟩
  · rw [← Nat.pow_add, Nat.add_sub_cancel' (by omega), ← nat_pow_eq_unitsPerOne]
    rfl
  · rw [← Nat.one_mul (2 ^ _)]
    exact precise_mul_two_pow (by decide) _
  · rw [Nat.log2_two_pow]
    omega

/-- On a grid of a power of two steps a beat the step is exact. -/
theorem gridStep_two_pow {s : Nat} (hs : IsPart j s)
    (h : gridStep (.whole (2 ^ j : Nat)) = .ok step) : ∃ hr, step = finite false s hr := by
  obtain ⟨hround, hfin⟩ := isRounding_gridStep (Nat.two_pow_pos j) h
  refine hround.eq_finite hfin hs.2.1 ?_
  rw [← hs.1]
  push_cast
  field_simp

/-- A time counts its steps exactly on such a grid. -/
theorem FallsOn.eq_halfUp {s : Nat} {hr : Representable s} {hu : Representable u}
    (hs : IsPart j s) (h : FallsOn (finite false s hr) (finite false u hu) m) :
    m = halfUp (2 ^ j * u) := by
  obtain ⟨q, hq, hk⟩ := h
  have hzero := (settles_quotient _ _).of_eq_ok hq
  have hpos := zero_lt_value hzero ⟨rfl, rfl⟩ rfl
  obtain rfl := quotient_eq hq
  have hnan := isNan_div (x := finite false u hu) (y := finite false s hr) rfl rfl hzero
  have hqf := (settles_roundHalfUp hnan).of_eq_ok hk
  have hround := isRounding_div (x := finite false u hu) ⟨rfl, rfl⟩ ⟨rfl, rfl⟩ rfl rfl hpos
  have hcount : (finite false u hu).value / (finite false s hr).value * unitsPerOne =
      (2 ^ j * u : Nat) := by
    have hone : (unitsPerOne : ℚ) = 2 ^ j * s := by exact_mod_cast hs.1.symm
    have hne : (s : ℚ) ≠ 0 := by
      rintro hzero
      rw [value_finite, hzero, zero_div] at hpos
      exact hpos.false
    rw [value_finite, value_finite, hone]
    push_cast
    field_simp
  obtain ⟨hw, he⟩ := hround.eq_finite hqf (hu.precise.two_pow_mul j) hcount
  rw [he, roundHalfUp_finite hw] at hk
  exact (Except.ok.inj hk).symm

/-- On such a grid a time that is a step later falls on a later step. -/
theorem FallsOn.lt_of_two_pow (hj : j ≤ 50) (hstep : gridStep (.whole (2 ^ j : Nat)) = .ok step)
    (hx : x.Unsigned) (hy : y.Unsigned) (hxf : x.isFinite) (hyf : y.isFinite)
    (hxm : FallsOn step x m) (hyn : FallsOn step y n) (hm : m ≤ 2 ^ 49)
    (hlater : (x + step).isFinite) (hle : (x + step).value ≤ y.value) : m < n := by
  have hs := isPart_two_pow hj
  generalize 2 ^ (1074 - j) = s at hs
  obtain ⟨hr, rfl⟩ := gridStep_two_pow hs hstep
  obtain ⟨u, hu, rfl⟩ := hx.exists_magnitude hxf
  obtain ⟨v, hv, rfl⟩ := hy.exists_magnitude hyf
  have hmu := hxm.eq_halfUp hs
  have hnv := hyn.eq_halfUp hs
  rw [add_finite] at hlater hle
  rw [value_ofUnits hlater, value_finite,
    div_le_div_iff_of_pos_right cast_unitsPerOne_pos, Nat.cast_le] at hle
  -- Rounding commutes with counting, so a step later is one more, rounded.
  have hlt : halfUp (2 ^ j * u) < halfUp (2 ^ j * v) :=
    calc halfUp (2 ^ j * u)
        < halfUp (nearestMagnitude (2 ^ j * u + unitsPerOne) 1) := halfUp_lt_add_one (by omega)
      _ = halfUp (2 ^ j * nearestMagnitude (u + s) 1) := by
          rw [← hs.1, ← Nat.mul_add, nearestMagnitude_two_pow_mul]
          exact hs.2.2.trans (log2_mono (Nat.le_add_left s u))
      _ ≤ halfUp (2 ^ j * v) := halfUp_mono (Nat.mul_le_mul_left _ hle)
  omega

end PowerOfTwo

end Midi
end PatternLoom
