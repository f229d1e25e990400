import Mathlib
import PatternLoom.Proofs.Binary64.Nearest
import PatternLoom.Proofs.Binary64.Number
import PatternLoom.Proofs.Result

/-! Numbers that are not negative as rationals. Every operation on them gives the exact result
rounded once, rounding keeps the order, and it is off by one part in `2^53` at most where the
result is not tiny. -/

namespace PatternLoom

theorem le_nearestEven_mul {num den : Nat} (hd : 0 < den) :
    2 * num ≤ 2 * (nearestEven num den * den) + den := by
  have hdiv := Nat.div_add_mod num den
  have hmod := Nat.mod_lt num hd
  rw [Nat.mul_comm] at hdiv
  unfold nearestEven
  dsimp only
  split
  · omega
  · rw [Nat.add_mul]
    omega

theorem abs_nearestEven_sub_le (num : Nat) {den : Nat} (hd : 0 < den) :
    |(nearestEven num den : ℚ) - num / den| ≤ 1 / 2 := by
  have hhigh : 2 * ((nearestEven num den : ℚ) * den) ≤ 2 * num + den := by
    exact_mod_cast nearestEven_mul_le num den
  have hlow : 2 * (num : ℚ) ≤ 2 * (nearestEven num den * den) + den := by
    exact_mod_cast @le_nearestEven_mul num den hd
  have hdq : (0 : ℚ) < den := Nat.cast_pos.mpr hd
  have he : (nearestEven num den : ℚ) - num / den = (nearestEven num den * den - num) / den := by
    rw [sub_div, mul_div_cancel_right₀ _ hdq.ne']
  rw [he, abs_div, abs_of_pos hdq, div_le_iff₀ hdq, abs_le]
  constructor <;> linarith

/-- No other count is nearer. -/
theorem abs_nearestEven_sub_le_abs (num : Nat) {den : Nat} (hd : 0 < den) (k : Nat) :
    |(nearestEven num den : ℚ) - num / den| ≤ |(k : ℚ) - num / den| := by
  rcases eq_or_ne k (nearestEven num den) with rfl | hne
  · exact le_rfl
  · have hhalf := abs_nearestEven_sub_le num hd
    have hapart : (1 : ℚ) ≤ |(k : ℚ) - nearestEven num den| := by
      have hint : (k : Int) - nearestEven num den ≠ 0 := sub_ne_zero.mpr (by exact_mod_cast hne)
      exact_mod_cast Int.one_le_abs hint
    have htriangle := abs_sub_le (k : ℚ) (num / den) (nearestEven num den)
    rw [abs_sub_comm (num / den : ℚ)] at htriangle
    linarith

/-- A count less than half a step from a ratio, or an even one half a step from it. -/
def IsNearestCount (num den n : Nat) : Prop :=
  2 * ((num : Int) - (n * den : Nat)).natAbs < den ∨
    2 * ((num : Int) - (n * den : Nat)).natAbs = den ∧ n % 2 = 0

theorem isNearestCount_nearestEven (num : Nat) {den : Nat} (hd : 0 < den) :
    IsNearestCount num den (nearestEven num den) := by
  have hdiv := Nat.div_add_mod' num den
  have hmod := Nat.mod_lt num hd
  have hnext : (num / den + 1) * den = num / den * den + den := Nat.succ_mul _ _
  unfold IsNearestCount nearestEven
  dsimp only
  split
  · omega
  · rw [hnext]
    omega

/-- Two of them cannot lie half a step from the ratio on both sides, where one is odd. -/
theorem IsNearestCount.le {num den j k : Nat} (hd : 0 < den) (hj : IsNearestCount num den j)
    (hk : IsNearestCount num den k) : j ≤ k := by
  by_contra hlt
  unfold IsNearestCount at hj hk
  obtain rfl | hfar : j = k + 1 ∨ k + 2 ≤ j := by omega
  · rw [Nat.succ_mul k den] at hj
    omega
  · have hsteps := Nat.mul_le_mul_right den hfar
    rw [Nat.add_mul] at hsteps
    omega

/-- What is nearer to the count of a ratio is counted alike. -/
theorem nearestEven_eq_of_nearer {a b den : Nat} (hd : 0 < den)
    (h : ((b : Int) - (nearestEven a den * den : Nat)).natAbs ≤
      ((a : Int) - (nearestEven a den * den : Nat)).natAbs) :
    nearestEven b den = nearestEven a den := by
  have ha : IsNearestCount b den (nearestEven a den) := by
    have hcount := isNearestCount_nearestEven a hd
    unfold IsNearestCount at hcount ⊢
    omega
  have hb := isNearestCount_nearestEven b hd
  exact le_antisymm (hb.le hd ha) (ha.le hd hb)

theorem two_pow_mul_spacing_le {u : Nat} (h : 2 ^ 52 ≤ u) : 2 ^ 52 * spacing u ≤ u := by
  have hpos : u ≠ 0 := by omega
  have hlog : 52 ≤ u.log2 := (Nat.le_log2 hpos).mpr h
  have hsplit : 2 ^ 52 * spacing u = 2 ^ u.log2 := by
    rw [spacing, Nat.pow_eq, ← Nat.pow_add]
    congr 1
    omega
  rw [hsplit]
  exact Nat.log2_self_le hpos

theorem spacing_eq_of_lt {u : Nat} (h : u < 2 ^ 53) : spacing u = 1 := by
  by_cases hu : u = 0
  · subst hu
    rfl
  · have hlog : u.log2 < 53 := (Nat.log2_lt hu).mpr h
    rw [spacing, Nat.sub_eq_zero_of_le (by omega), Nat.pow_eq, Nat.pow_zero]

section Error

variable {num den : Nat}

/-- A rounded magnitude is off by half a spacing at most. -/
theorem nearestMagnitude_error (hd : 0 < den) :
    2 * (nearestMagnitude num den * den) ≤ 2 * num + den * spacing (num / den) ∧
      2 * num ≤ 2 * (nearestMagnitude num den * den) + den * spacing (num / den) := by
  have hstep : 0 < den * spacing (num / den) := Nat.mul_pos hd (spacing_pos _)
  have he : nearestMagnitude num den * den =
      nearestEven num (den * spacing (num / den)) * (den * spacing (num / den)) := by
    rw [nearestMagnitude]
    ring
  rw [he]
  exact ⟨nearestEven_mul_le _ _, le_nearestEven_mul hstep⟩

theorem two_pow_mul_step_le (h : 2 ^ 52 * den ≤ num) (hd : 0 < den) :
    2 ^ 52 * (den * spacing (num / den)) ≤ num := by
  have hle := two_pow_mul_spacing_le ((Nat.le_div_iff_mul_le hd).mpr h)
  calc 2 ^ 52 * (den * spacing (num / den))
      = 2 ^ 52 * spacing (num / den) * den := by ring
    _ ≤ num / den * den := Nat.mul_le_mul_right _ hle
    _ ≤ num := Nat.div_mul_le_self _ _

/-- Where the magnitudes have all their bits the error is relative. -/
theorem abs_nearestMagnitude_sub_le (hd : 0 < den) (h : 2 ^ 52 * den ≤ num) :
    |(nearestMagnitude num den : ℚ) - num / den| ≤ num / den / 2 ^ 53 := by
  obtain ⟨hhigh, hlow⟩ := @nearestMagnitude_error num den hd
  have hstep := two_pow_mul_step_le h hd
  have hdq : (0 : ℚ) < den := Nat.cast_pos.mpr hd
  have hhigh' : (nearestMagnitude num den : ℚ) * den ≤ num + num / 2 ^ 53 := by
    have hle : 2 ^ 53 * (nearestMagnitude num den * den) ≤ 2 ^ 53 * num + num := by omega
    have hcast : (2 : ℚ) ^ 53 * (nearestMagnitude num den * den) ≤ 2 ^ 53 * num + num := by
      exact_mod_cast hle
    linarith
  have hlow' : (num : ℚ) - num / 2 ^ 53 ≤ nearestMagnitude num den * den := by
    have hle : 2 ^ 53 * num ≤ 2 ^ 53 * (nearestMagnitude num den * den) + num := by omega
    have hcast : (2 : ℚ) ^ 53 * num ≤ 2 ^ 53 * (nearestMagnitude num den * den) + num := by
      exact_mod_cast hle
    linarith
  have he : (nearestMagnitude num den : ℚ) - num / den =
      (nearestMagnitude num den * den - num) / den := by
    rw [sub_div, mul_div_cancel_right₀ _ hdq.ne']
  rw [he, abs_div, abs_of_pos hdq, div_right_comm, div_le_div_iff_of_pos_right hdq, abs_le]
  constructor <;> linarith

/-- Below that it is half a unit at most. -/
theorem abs_nearestMagnitude_sub_le_half (hd : 0 < den) (h : num < 2 ^ 53 * den) :
    |(nearestMagnitude num den : ℚ) - num / den| ≤ 1 / 2 := by
  have he : nearestMagnitude num den = nearestEven num den := by
    rw [nearestMagnitude, spacing_eq_of_lt ((Nat.div_lt_iff_lt_mul hd).mpr h), Nat.mul_one,
      Nat.mul_one]
  rw [he]
  exact abs_nearestEven_sub_le num hd

/-- No other precise magnitude is nearer. -/
theorem Precise.abs_nearest_sub_le {r : Nat} (hr : Precise r) (hd : 0 < den) :
    |(nearestMagnitude num den : ℚ) - num / den| ≤ |(r : ℚ) - num / den| := by
  have hdq : (0 : ℚ) < den := Nat.cast_pos.mpr hd
  have hgrid : ∀ t, spacing (num / den) ∣ t →
      |(nearestMagnitude num den : ℚ) - num / den| ≤ |(t : ℚ) - num / den| := by
    rintro _ ⟨k, rfl⟩
    have hstep : (0 : ℚ) < spacing (num / den) := Nat.cast_pos.mpr (spacing_pos _)
    have hnear := abs_nearestEven_sub_le_abs num (Nat.mul_pos hd (spacing_pos (num / den))) k
    have hscale : ∀ c : ℚ, |c * spacing (num / den) - num / den| =
        |c - num / (den * spacing (num / den) : Nat)| * spacing (num / den) := by
      intro c
      rw [← abs_of_pos hstep, ← abs_mul, abs_of_pos hstep, sub_mul]
      push_cast
      rw [div_mul_eq_mul_div, mul_div_mul_right _ _ hstep.ne']
    rw [nearestMagnitude, Nat.cast_mul, Nat.cast_mul, mul_comm (spacing _ : ℚ), hscale, hscale]
    exact mul_le_mul_of_nonneg_right hnear hstep.le
  rcases le_or_gt (num / den).log2 r.log2 with hle | hlt
  · exact hgrid r ((spacing_dvd_spacing hle).trans hr)
  · -- the power of two that begins the binade of the quotient is no farther than what is below it
    have hpos : num / den ≠ 0 := by
      intro h0
      rw [h0] at hlt
      simp at hlt
    have hbelow : (r : ℚ) ≤ (2 ^ (num / den).log2 : Nat) := by
      exact_mod_cast (lt_two_pow_log2 hlt).le
    have habove : ((2 ^ (num / den).log2 : Nat) : ℚ) ≤ num / den := by
      rw [le_div_iff₀ hdq]
      exact_mod_cast (Nat.le_div_iff_mul_le hd).mp (Nat.log2_self_le hpos)
    refine (hgrid _ (Nat.pow_dvd_pow 2 (Nat.sub_le _ _))).trans ?_
    rw [abs_sub_comm, abs_sub_comm (r : ℚ), abs_of_nonneg (by linarith), abs_of_nonneg (by linarith)]
    linarith

/-- So it is as near as some precise magnitude is. -/
theorem Precise.nearest_within {u r d : Nat} (hr : Precise r) (hlow : u ≤ r + d) (hhigh : r ≤ u + d) :
    u ≤ nearestMagnitude u 1 + d ∧ nearestMagnitude u 1 ≤ u + d := by
  have hnear := @Precise.abs_nearest_sub_le u 1 r hr Nat.one_pos
  have hdist : |(r : ℚ) - u| ≤ d := by
    have hlowq : (u : ℚ) ≤ r + d := by exact_mod_cast hlow
    have hhighq : (r : ℚ) ≤ u + d := by exact_mod_cast hhigh
    exact abs_le.mpr ⟨by linarith, by linarith⟩
  rw [Nat.cast_one, div_one] at hnear
  obtain ⟨hbelow, habove⟩ := abs_le.mp (hnear.trans hdist)
  constructor
  · have hle : (u : ℚ) ≤ nearestMagnitude u 1 + d := by linarith
    exact_mod_cast hle
  · have hle : (nearestMagnitude u 1 : ℚ) ≤ u + d := by linarith
    exact_mod_cast hle

end Error

namespace Binary64

attribute [local irreducible] unitsPerOne

/-- The value of a finite number. -/
def value (x : Binary64) : ℚ := x.units / unitsPerOne

/-- Neither `nan` nor negative, not even a negative zero. -/
def Unsigned (x : Binary64) : Prop := x.isNan = false ∧ x.isNegative = false

theorem cast_unitsPerOne_pos : (0 : ℚ) < unitsPerOne := Nat.cast_pos.mpr unitsPerOne_pos

theorem two_pow_le_unitsPerOne : (2 : ℚ) ^ 160 ≤ unitsPerOne := by
  have hle : 2 ^ 160 ≤ unitsPerOne := by decide +kernel
  exact_mod_cast hle

theorem Unsigned.exists_magnitude {x : Binary64} (h : x.Unsigned) (hx : x.isFinite) :
    ∃ u hu, x = finite false u hu := by
  obtain ⟨negative, u, hu, rfl⟩ := exists_finite hx
  obtain rfl : negative = false := h.2
  exact ⟨u, hu, rfl⟩

theorem value_finite {u : Nat} (hu : Representable u) :
    (finite false u hu).value = u / unitsPerOne := by
  simp [value, units]

theorem value_finite_true {u : Nat} (hu : Representable u) :
    (finite true u hu).value = -(u / unitsPerOne) := by
  simp [value, units, neg_div]

theorem Unsigned.value_nonneg {x : Binary64} (h : x.Unsigned) : 0 ≤ x.value := by
  cases x with
  | nan => simp [value, units]
  | infinity _ => simp [value, units]
  | finite negative u hu =>
    obtain rfl : negative = false := h.2
    rw [value_finite]
    positivity

theorem lt_iff_value {x y : Binary64} (hx : x.isFinite) (hy : y.isFinite) :
    x < y ↔ x.value < y.value := by
  rw [lt_iff_units hx hy, value, value, div_lt_div_iff_of_pos_right cast_unitsPerOne_pos, Int.cast_lt]

theorem equal_iff_value {x y : Binary64} (hx : x.isFinite) (hy : y.isFinite) :
    x.equal y = true ↔ x.value = y.value := by
  obtain ⟨a, u, hu, rfl⟩ := exists_finite hx
  obtain ⟨b, v, hv, rfl⟩ := exists_finite hy
  rw [value, value, div_left_inj' cast_unitsPerOne_pos.ne', Int.cast_inj]
  exact beq_iff_eq

theorem le_iff_value {x y : Binary64} (hx : x.isFinite) (hy : y.isFinite) :
    x ≤ y ↔ x.value ≤ y.value := by
  change (x.lt y || x.equal y) = true ↔ _
  rw [Bool.or_eq_true, equal_iff_value hx hy, le_iff_lt_or_eq, ← lt_iff_value hx hy]
  rfl

theorem equal_eq_false_of_lt {x y : Binary64} (h : x < y) : y.equal x = false := by
  cases x with
  | nan => cases h
  | infinity a =>
    cases y with
    | nan => cases h
    | infinity b => cases a <;> cases b <;> first | rfl | cases h
    | finite _ _ _ => rfl
  | finite a u hu =>
    cases y with
    | nan => cases h
    | infinity _ => rfl
    | finite b v hv =>
      rw [lt_finite] at h
      exact beq_false_of_ne (by omega)

theorem isFinite_zero : (0 : Binary64).isFinite := by decide +kernel

theorem pos_iff {x : Binary64} (hx : x.isFinite) : 0 < x ↔ ¬ x ≤ 0 := by
  rw [le_iff_value hx isFinite_zero, not_le, lt_iff_value isFinite_zero hx]

theorem unsigned_zero : (0 : Binary64).Unsigned := ⟨by decide +kernel, by decide +kernel⟩

theorem value_zero : (0 : Binary64).value = 0 := by
  have hunits : (0 : Binary64).units = 0 := by decide +kernel
  rw [value, hunits, Int.cast_zero, zero_div]

theorem unsigned_one : (1 : Binary64).Unsigned := by
  obtain ⟨hr, he⟩ := one_eq
  rw [he]
  exact ⟨rfl, rfl⟩

theorem value_one : (1 : Binary64).value = 1 := by
  obtain ⟨hr, he⟩ := one_eq
  rw [he, value_finite, div_self cast_unitsPerOne_pos.ne']

/-- The number nearest to a value that is not negative. -/
def IsRounding (z : Binary64) (v : ℚ) : Prop :=
  ∃ num den : Nat, 0 < den ∧ v * unitsPerOne = num / den ∧ z = ofUnits false num den

section Rounding

variable {z z' : Binary64} {v v' : ℚ}

theorem IsRounding.unsigned (h : IsRounding z v) : z.Unsigned := by
  obtain ⟨num, den, _, _, he⟩ := h
  rw [he]
  refine ⟨isNan_ofUnits _ _ _, ?_⟩
  unfold ofUnits
  split <;> rfl

theorem value_ofUnits {num den : Nat} (h : (ofUnits false num den).isFinite) :
    (ofUnits false num den).value = nearestMagnitude num den / unitsPerOne := by
  by_cases hlt : nearestMagnitude num den < magnitudeBound
  · rw [ofUnits_eq_finite (representable_nearestMagnitude hlt) rfl, value_finite]
  · rw [ofUnits, dif_neg hlt] at h
    cases h

theorem IsRounding.nonneg (h : IsRounding z v) : 0 ≤ v := by
  obtain ⟨num, den, _, hv, _⟩ := h
  have hq : 0 ≤ v * unitsPerOne := by
    rw [hv]
    positivity
  exact nonneg_of_mul_nonneg_left hq cast_unitsPerOne_pos

theorem cross_le {num den num' den' : Nat} (hd : 0 < den) (hd' : 0 < den')
    (hv : v * unitsPerOne = num / den) (hv' : v' * unitsPerOne = num' / den') (hle : v ≤ v') :
    num * den' ≤ num' * den := by
  have hq : (num : ℚ) / den ≤ num' / den' := by
    rw [← hv, ← hv']
    exact mul_le_mul_of_nonneg_right hle cast_unitsPerOne_pos.le
  rw [div_le_div_iff₀ (Nat.cast_pos.mpr hd) (Nat.cast_pos.mpr hd')] at hq
  exact_mod_cast hq

theorem IsRounding.mono (h : IsRounding z v) (h' : IsRounding z' v') (hz : z.isFinite)
    (hz' : z'.isFinite) (hle : v ≤ v') : z.value ≤ z'.value := by
  obtain ⟨num, den, hd, hv, he⟩ := h
  obtain ⟨num', den', hd', hv', he'⟩ := h'
  rw [he] at hz ⊢
  rw [he'] at hz' ⊢
  rw [value_ofUnits hz, value_ofUnits hz', div_le_div_iff_of_pos_right cast_unitsPerOne_pos,
    Nat.cast_le]
  exact nearestMagnitude_mono hd hd' (cross_le hd hd' hv hv' hle)

/-- One value has one rounding. -/
theorem IsRounding.unique (h : IsRounding z v) (h' : IsRounding z' v) : z = z' := by
  obtain ⟨num, den, hd, hv, he⟩ := h
  obtain ⟨num', den', hd', hv', he'⟩ := h'
  have hmagnitude : nearestMagnitude num den = nearestMagnitude num' den' :=
    le_antisymm (nearestMagnitude_mono hd hd' (cross_le hd hd' hv hv' le_rfl))
      (nearestMagnitude_mono hd' hd (cross_le hd' hd hv' hv le_rfl))
  rw [he, he']
  by_cases hlt : nearestMagnitude num den < magnitudeBound
  · have hr := representable_nearestMagnitude hlt
    rw [ofUnits_eq_finite hr rfl, ofUnits_eq_finite hr hmagnitude.symm]
  · rw [ofUnits, ofUnits, dif_neg hlt, dif_neg (by rwa [← hmagnitude])]

theorem abs_value_sub {num den : Nat} (hz : (ofUnits false num den).isFinite)
    (hv : v * unitsPerOne = num / den) : |(ofUnits false num den).value - v| * unitsPerOne =
      |(nearestMagnitude num den : ℚ) - num / den| := by
  have hpos := cast_unitsPerOne_pos
  rw [value_ofUnits hz, ← hv, ← abs_of_pos hpos, ← abs_mul, sub_mul, abs_of_pos hpos,
    div_mul_cancel₀ _ hpos.ne']

/-- One rounding is off by one part in `2^53`. -/
theorem IsRounding.abs_sub_le (h : IsRounding z v) (hz : z.isFinite) (hv : 1 / 2 ^ 100 ≤ v) :
    |z.value - v| ≤ v / 2 ^ 53 := by
  obtain ⟨num, den, hd, hnum, he⟩ := h
  rw [he] at hz ⊢
  have hpos := cast_unitsPerOne_pos
  have hdq : (0 : ℚ) < den := Nat.cast_pos.mpr hd
  have hlarge : 2 ^ 52 * den ≤ num := by
    have hq : (2 : ℚ) ^ 52 ≤ num / den := by
      rw [← hnum]
      calc (2 : ℚ) ^ 52 ≤ 1 / 2 ^ 100 * 2 ^ 160 := by norm_num
        _ ≤ v * unitsPerOne := mul_le_mul hv two_pow_le_unitsPerOne (by positivity)
            (hv.trans' (by positivity))
    rw [le_div_iff₀ hdq] at hq
    exact_mod_cast hq
  refine le_of_mul_le_mul_right ?_ hpos
  rw [abs_value_sub hz hnum, div_mul_eq_mul_div, hnum]
  exact abs_nearestMagnitude_sub_le hd hlarge

/-- One rounding takes away one part in `2^53` at most. -/
theorem IsRounding.mul_le_value (h : IsRounding z v) (hz : z.isFinite) (hv : 1 / 2 ^ 100 ≤ v) :
    v * (1 - 1 / 2 ^ 53) ≤ z.value := by
  obtain ⟨herr, -⟩ := abs_le.mp (h.abs_sub_le hz hv)
  linarith

/-- Of tiny values it is off by less than the tiniest that matters. -/
theorem IsRounding.abs_sub_le_add (h : IsRounding z v) (hz : z.isFinite) :
    |z.value - v| ≤ v / 2 ^ 53 + 1 / 2 ^ 100 := by
  have hv := h.nonneg
  rcases le_or_gt (1 / 2 ^ 100) v with hle | hlt
  · have hrel := h.abs_sub_le hz hle
    have htiny : (0 : ℚ) ≤ 1 / 2 ^ 100 := by positivity
    linarith
  · obtain ⟨num, den, hd, hnum, he⟩ := h
    rw [he] at hz ⊢
    have hpos := cast_unitsPerOne_pos
    have hdq : (0 : ℚ) < den := Nat.cast_pos.mpr hd
    have hone := two_pow_le_unitsPerOne
    refine le_of_mul_le_mul_right ?_ hpos
    rw [abs_value_sub hz hnum, add_mul, div_mul_eq_mul_div, hnum]
    have hquot : (0 : ℚ) ≤ num / den / 2 ^ 53 := by positivity
    rcases Nat.lt_or_ge num (2 ^ 53 * den) with hsmall | hlarge
    · have hhalf := abs_nearestMagnitude_sub_le_half hd hsmall
      have hbig : (1 : ℚ) / 2 ≤ 1 / 2 ^ 100 * unitsPerOne := by
        calc (1 : ℚ) / 2 ≤ 1 / 2 ^ 100 * 2 ^ 160 := by norm_num
          _ ≤ 1 / 2 ^ 100 * unitsPerOne := mul_le_mul_of_nonneg_left hone (by positivity)
      linarith
    · have hrel := @abs_nearestMagnitude_sub_le num den hd (by omega)
      have hbig : (0 : ℚ) ≤ 1 / 2 ^ 100 * unitsPerOne := by positivity
      linarith

/-- No other number is nearer to what is rounded. -/
theorem IsRounding.abs_sub_le_abs (h : IsRounding z v) (hz : z.isFinite) {x : Binary64} (hx : x.isFinite) :
    |z.value - v| ≤ |x.value - v| := by
  have hnonneg := h.nonneg
  obtain ⟨num, den, hd, hv, he⟩ := h
  rw [he] at hz ⊢
  have hpos := cast_unitsPerOne_pos
  have hprecise : ∀ {r : Nat}, Precise r →
      |(ofUnits false num den).value - v| ≤ |(r : ℚ) / unitsPerOne - v| := by
    intro r hr
    refine le_of_mul_le_mul_right ?_ hpos
    rw [abs_value_sub hz hv, ← abs_of_pos hpos, ← abs_mul, sub_mul, abs_of_pos hpos, hv,
      div_mul_cancel₀ _ hpos.ne']
    exact hr.abs_nearest_sub_le hd
  obtain ⟨negative, u, hu, rfl⟩ := exists_finite hx
  cases negative with
  | false =>
    rw [value_finite]
    exact hprecise hu.precise
  | true =>
    have hzero := hprecise (Nat.dvd_zero _ : Precise 0)
    have hle : (finite true u hu).value ≤ 0 := by
      rw [value_finite_true, neg_nonpos]
      positivity
    rw [Nat.cast_zero, zero_div, zero_sub, abs_neg, abs_of_nonneg hnonneg] at hzero
    have hfar := neg_le_abs ((finite true u hu).value - v)
    linarith

/-- The error of a number that counts units of another size. -/
theorem IsRounding.abs_mul_sub_le {c : ℚ} (h : IsRounding z v) (hz : z.isFinite) (hc : 0 ≤ c) :
    |z.value * c - v * c| ≤ v * c / 2 ^ 53 + c / 2 ^ 100 := by
  rw [← sub_mul, abs_mul, abs_of_nonneg hc]
  calc |z.value - v| * c ≤ (v / 2 ^ 53 + 1 / 2 ^ 100) * c :=
        mul_le_mul_of_nonneg_right (h.abs_sub_le_add hz) hc
    _ = v * c / 2 ^ 53 + c / 2 ^ 100 := by ring

/-- What is precise is not rounded. -/
theorem IsRounding.eq_finite {r : Nat} (h : IsRounding z v) (hz : z.isFinite) (hr : Precise r)
    (hv : v * unitsPerOne = r) : ∃ hu, z = finite false r hu := by
  obtain ⟨num, den, hd, hnum, he⟩ := h
  have hdq : (0 : ℚ) < den := Nat.cast_pos.mpr hd
  have hexact : num = r * den := by
    rw [hv, eq_div_iff hdq.ne'] at hnum
    exact_mod_cast hnum.symm
  rw [he, hexact] at hz ⊢
  have hnearest := nearestMagnitude_mul hr hd
  by_cases hlt : r < magnitudeBound
  · exact ⟨hr.representable hlt, ofUnits_eq_finite (hr.representable hlt) hnearest⟩
  · rw [ofUnits, dif_neg (by rwa [hnearest])] at hz
    cases hz

theorem IsRounding.isFinite_of_le (h : IsRounding z v) (h' : IsRounding z' v') (hle : v ≤ v')
    (hz' : z'.isFinite) : z.isFinite := by
  obtain ⟨num, den, hd, hv, he⟩ := h
  obtain ⟨num', den', hd', hv', he'⟩ := h'
  rw [he'] at hz'
  rw [he]
  have hmono := nearestMagnitude_mono hd hd' (cross_le hd hd' hv hv' hle)
  by_cases hlt : nearestMagnitude num' den' < magnitudeBound
  · rw [ofUnits, dif_pos (hmono.trans_lt hlt)]
    rfl
  · rw [ofUnits, dif_neg hlt] at hz'
    cases hz'

end Rounding

section Operations

variable {x y z : Binary64}

theorem isRounding_self (h : x.Unsigned) (hx : x.isFinite) : IsRounding x x.value := by
  obtain ⟨u, hu, rfl⟩ := h.exists_magnitude hx
  refine ⟨u, 1, Nat.one_pos, ?_, (ofUnits_eq_finite hu (nearestMagnitude_self hu.precise)).symm⟩
  rw [value_finite, div_mul_cancel₀ _ cast_unitsPerOne_pos.ne', Nat.cast_one, div_one]

/-- A value between two numbers stays between them when it is rounded. -/
theorem IsRounding.between {lo hi : Binary64} {v : ℚ} (h : IsRounding z v)
    (hlo : lo.Unsigned ∧ lo.isFinite) (hhi : hi.Unsigned ∧ hi.isFinite) (hle : lo.value ≤ v)
    (hle' : v ≤ hi.value) : z.isFinite ∧ lo.value ≤ z.value ∧ z.value ≤ hi.value := by
  have hlow := isRounding_self hlo.1 hlo.2
  have hhigh := isRounding_self hhi.1 hhi.2
  have hfinite := h.isFinite_of_le hhigh hle' hhi.2
  exact ⟨hfinite, hlow.mono h hlo.2 hfinite hle, h.mono hhigh hfinite hhi.2 hle'⟩

/-- A count of units that is not negative, rounded; zero is not negative either. -/
theorem ofSignedUnits_false (n : Nat) : ofSignedUnits false n = ofUnits false n 1 := by
  unfold ofSignedUnits
  split
  · obtain rfl : n = 0 := by omega
    exact (ofUnits_eq_finite representable_zero (nearestMagnitude_zero 1)).symm
  · rw [Int.natAbs_natCast]
    congr 1

theorem add_finite {u v : Nat} (hu : Representable u) (hv : Representable v) :
    finite false u hu + finite false v hv = ofUnits false (u + v) 1 := by
  change ofSignedUnits false ((u : Int) + (v : Int)) = _
  rw [← Nat.cast_add, ofSignedUnits_false]

theorem sub_finite {u v : Nat} (hu : Representable u) (hv : Representable v) (h : v ≤ u) :
    finite false u hu - finite false v hv = ofUnits false (u - v) 1 := by
  change ofSignedUnits false ((u : Int) + -(v : Int)) = _
  rw [← sub_eq_add_neg, ← Nat.cast_sub h, ofSignedUnits_false]

theorem isRounding_add (hx : x.Unsigned) (hy : y.Unsigned) (hxf : x.isFinite) (hyf : y.isFinite) :
    IsRounding (x + y) (x.value + y.value) := by
  obtain ⟨u, hu, rfl⟩ := hx.exists_magnitude hxf
  obtain ⟨v, hv, rfl⟩ := hy.exists_magnitude hyf
  refine ⟨u + v, 1, Nat.one_pos, ?_, add_finite hu hv⟩
  rw [value_finite, value_finite, ← add_div, div_mul_cancel₀ _ cast_unitsPerOne_pos.ne']
  simp

theorem isRounding_sub (hx : x.Unsigned) (hy : y.Unsigned) (hxf : x.isFinite) (hyf : y.isFinite)
    (h : y.value ≤ x.value) : IsRounding (x - y) (x.value - y.value) := by
  obtain ⟨u, hu, rfl⟩ := hx.exists_magnitude hxf
  obtain ⟨v, hv, rfl⟩ := hy.exists_magnitude hyf
  rw [value_finite, value_finite, div_le_div_iff_of_pos_right cast_unitsPerOne_pos,
    Nat.cast_le] at h
  refine ⟨u - v, 1, Nat.one_pos, ?_, sub_finite hu hv h⟩
  rw [value_finite, value_finite, ← sub_div, div_mul_cancel₀ _ cast_unitsPerOne_pos.ne',
    Nat.cast_sub h, Nat.cast_one, div_one]

theorem isRounding_mul (hx : x.Unsigned) (hy : y.Unsigned) (hxf : x.isFinite) (hyf : y.isFinite) :
    IsRounding (x * y) (x.value * y.value) := by
  obtain ⟨u, hu, rfl⟩ := hx.exists_magnitude hxf
  obtain ⟨v, hv, rfl⟩ := hy.exists_magnitude hyf
  have hpos := cast_unitsPerOne_pos.ne'
  refine ⟨u * v, unitsPerOne, unitsPerOne_pos, ?_, mul_finite⟩
  rw [value_finite, value_finite]
  push_cast
  field_simp

theorem mul_one_eq (x : Binary64) : x * 1 = x := by
  obtain ⟨hone, he⟩ := one_eq
  rw [he]
  cases x with
  | nan => rfl
  | infinity negative =>
    change (if unitsPerOne = 0 then nan else infinity (negative != false)) = _
    rw [if_neg unitsPerOne_pos.ne', Bool.bne_false]
  | finite negative u hu =>
    rw [mul_finite, Bool.bne_false]
    exact ofUnits_eq_finite hu (nearestMagnitude_mul hu.precise unitsPerOne_pos)

theorem isRounding_div (hx : x.Unsigned) (hy : y.Unsigned) (hxf : x.isFinite) (hyf : y.isFinite)
    (h : 0 < y.value) : IsRounding (x / y) (x.value / y.value) := by
  obtain ⟨u, hu, rfl⟩ := hx.exists_magnitude hxf
  obtain ⟨v, hv, rfl⟩ := hy.exists_magnitude hyf
  have hpos := cast_unitsPerOne_pos.ne'
  have hv0 : v ≠ 0 := by
    rintro rfl
    rw [value_finite] at h
    simp at h
  refine ⟨u * unitsPerOne, v, Nat.pos_of_ne_zero hv0, ?_, div_finite hv0⟩
  have hvq : (v : ℚ) ≠ 0 := Nat.cast_ne_zero.mpr hv0
  rw [value_finite, value_finite]
  push_cast
  field_simp

theorem isRounding_ofInt {n : Nat} (h : ofInt n = .ok z) : IsRounding z n := by
  have hz := eq_of_inRange h
  have hneg : decide ((n : Int) < 0) = false := by simp
  rw [hneg, ofFraction, Int.natAbs_natCast] at hz
  refine ⟨n * unitsPerOne, 1, Nat.one_pos, ?_, hz⟩
  simp

theorem isRounding_ofFraction (m : Nat) {n : Nat} (hn : 0 < n) :
    IsRounding (ofFraction false m n) (m / n) := by
  refine ⟨m * unitsPerOne, n, hn, ?_, rfl⟩
  push_cast
  ring

theorem eq_of_ofQuotient {m n : Nat} (hn : 0 < n) (h : ofQuotient m n = .ok z) :
    z = ofFraction false m n := by
  have hne : (n : Int) ≠ 0 := by omega
  rw [ofQuotient, if_neg hne] at h
  have hz := eq_of_inRange h
  have hm : decide ((m : Int) < 0) = false := by simp
  have hd : decide ((n : Int) < 0) = false := by simp
  rwa [hm, hd, Bool.false_bne, Int.natAbs_natCast, Int.natAbs_natCast] at hz

theorem isRounding_ofQuotient {m n : Nat} (hn : 0 < n) (h : ofQuotient m n = .ok z) :
    IsRounding z (m / n) := by
  rw [eq_of_ofQuotient hn h]
  exact isRounding_ofFraction m hn

theorem isFinite_of_floor {k : Int} (h : x.floor = .ok k) : x.isFinite := by
  cases x with
  | nan => cases h
  | infinity _ => cases h
  | finite _ _ _ => rfl

theorem isFinite_of_ceil {k : Int} (h : x.ceil = .ok k) : x.isFinite := by
  cases x with
  | nan => cases h
  | infinity _ => cases h
  | finite _ _ _ => rfl

theorem eq_floor_value {k : Int} (h : x.floor = .ok k) : k = ⌊x.value⌋ := by
  rw [floor_eq_ok (isFinite_of_floor h)] at h
  rw [value, Rat.floor_intCast_div_natCast]
  exact (Except.ok.inj h).symm

theorem eq_ceil_value {k : Int} (h : x.ceil = .ok k) : k = ⌈x.value⌉ := by
  rw [ceil_eq_ok (isFinite_of_ceil h)] at h
  rw [value, Rat.ceil_intCast_div_natCast]
  exact (Except.ok.inj h).symm

theorem floor_le_value {k : Int} (h : x.floor = .ok k) : (k : ℚ) ≤ x.value ∧ x.value < k + 1 := by
  rw [eq_floor_value h]
  exact ⟨Int.floor_le x.value, Int.lt_floor_add_one x.value⟩

theorem le_floor_iff {n k : Int} (h : x.floor = .ok k) : n ≤ k ↔ (n : ℚ) ≤ x.value := by
  rw [eq_floor_value h, Int.le_floor]

theorem value_le_ceil {k : Int} (h : x.ceil = .ok k) : x.value ≤ k := by
  rw [eq_ceil_value h]
  exact Int.le_ceil x.value

end Operations

section Order

variable {x y : Binary64}

theorem Unsigned.of_lt (hx : x.Unsigned) (h : x < y) : y.Unsigned := by
  obtain ⟨hnan, hneg⟩ := hx
  cases x with
  | nan => cases hnan
  | infinity a =>
    obtain rfl : a = false := hneg
    cases y <;> cases h
  | finite a u hu =>
    obtain rfl : a = false := hneg
    cases y with
    | nan => cases h
    | infinity b =>
      cases b with
      | false => exact ⟨rfl, rfl⟩
      | true => cases h
    | finite b v hv =>
      cases b with
      | false => exact ⟨rfl, rfl⟩
      | true =>
        rw [lt_finite] at h
        simp only [units] at h
        omega

theorem one_le_value (hx : x.isFinite) (h : 1 ≤ x) : x.Unsigned ∧ 1 ≤ x.value := by
  rw [le_iff_value (by decide +kernel) hx, value_one] at h
  have hpos : 0 < x := by
    rw [lt_iff_value isFinite_zero hx, value_zero]
    linarith
  exact ⟨unsigned_zero.of_lt hpos, h⟩

theorem Unsigned.larger (hx : x.Unsigned) : (x.larger y).Unsigned := by
  unfold Binary64.larger
  split
  · rename_i h
    exact hx.of_lt h
  · exact hx

theorem Unsigned.add (hx : x.Unsigned) (hy : y.Unsigned) : (x + y).Unsigned := by
  by_cases hxf : x.isFinite
  · by_cases hyf : y.isFinite
    · exact (isRounding_add hx hy hxf hyf).unsigned
    · obtain ⟨u, hu, rfl⟩ := hx.exists_magnitude hxf
      cases y with
      | nan => exact hy
      | infinity _ => exact hy
      | finite _ _ _ => exact absurd rfl hyf
  · cases x with
    | nan => exact absurd hx.1 nofun
    | finite _ _ _ => exact absurd rfl hxf
    | infinity a =>
      obtain rfl : a = false := hx.2
      cases y with
      | nan => exact hy
      | infinity b =>
        obtain rfl : b = false := hy.2
        exact hx
      | finite _ _ _ => exact hx

theorem Unsigned.isFinite_of_add (hx : x.Unsigned) (hy : y.Unsigned) (h : (x + y).isFinite) :
    x.isFinite ∧ y.isFinite := by
  obtain ⟨hxnan, hxneg⟩ := hx
  obtain ⟨hynan, hyneg⟩ := hy
  cases x with
  | nan => cases hxnan
  | infinity a =>
    obtain rfl : a = false := hxneg
    cases y with
    | nan => cases hynan
    | infinity b =>
      obtain rfl : b = false := hyneg
      cases h
    | finite _ _ _ => cases h
  | finite _ _ _ =>
    cases y with
    | nan => cases hynan
    | infinity _ => cases h
    | finite _ _ _ => exact ⟨rfl, rfl⟩

theorem le_value_larger (hx : x.isFinite) (h : (x.larger y).isFinite) :
    x.value ≤ (x.larger y).value := by
  by_cases hlt : x < y
  · rw [Binary64.larger, if_pos hlt] at h ⊢
    exact ((lt_iff_value hx h).mp hlt).le
  · rw [Binary64.larger, if_neg hlt]

theorem value_larger (hx : x.isFinite) (hy : y.isFinite) :
    (x.larger y).value = max x.value y.value := by
  by_cases hlt : x < y
  · rw [Binary64.larger, if_pos hlt, max_eq_right ((lt_iff_value hx hy).mp hlt).le]
  · rw [Binary64.larger, if_neg hlt, max_eq_left (not_lt.mp fun hv => hlt ((lt_iff_value hx hy).mpr hv))]

/-- The larger of two numbers is finite only if both are. -/
theorem larger_bounds (hx : x.Unsigned) (hy : y.Unsigned) (h : (x.larger y).isFinite) :
    (x.isFinite ∧ x.value ≤ (x.larger y).value) ∧
      y.isFinite ∧ y.value ≤ (x.larger y).value := by
  by_cases hlt : x < y
  · rw [Binary64.larger, if_pos hlt] at h ⊢
    have hxf : x.isFinite := by
      cases x with
      | nan => exact absurd hx.1 nofun
      | infinity a =>
        obtain rfl : a = false := hx.2
        cases y <;> cases hlt
      | finite _ _ _ => rfl
    exact ⟨⟨hxf, ((lt_iff_value hxf h).mp hlt).le⟩, h, le_rfl⟩
  · rw [Binary64.larger, if_neg hlt] at h ⊢
    have hyf : y.isFinite := by
      cases y with
      | nan => exact absurd hy.1 nofun
      | infinity b =>
        obtain rfl : b = false := hy.2
        cases x with
        | nan => cases h
        | infinity _ => cases h
        | finite _ _ _ => exact absurd rfl hlt
      | finite _ _ _ => rfl
    exact ⟨⟨h, le_rfl⟩, hyf, not_lt.mp fun hv => hlt ((lt_iff_value h hyf).mpr hv)⟩

theorem le_value_add (hx : x.Unsigned) (hy : y.Unsigned) (hxf : x.isFinite) (hyf : y.isFinite)
    (h : (x + y).isFinite) : x.value ≤ (x + y).value :=
  (isRounding_self hx hxf).mono (isRounding_add hx hy hxf hyf) hxf h
    (le_add_of_nonneg_right hy.value_nonneg)

theorem Unsigned.foldl_larger {xs : List Binary64} (hx : x.Unsigned) :
    (xs.foldl Binary64.larger x).Unsigned := by
  induction xs generalizing x with
  | nil => exact hx
  | cons y xs ih => exact ih hx.larger

theorem foldl_larger_mem (xs : List Binary64) (x : Binary64) :
    xs.foldl Binary64.larger x ∈ x :: xs := by
  induction xs generalizing x with
  | nil => exact List.mem_singleton_self x
  | cons y xs ih =>
    have hmem := ih (x.larger y)
    rw [List.mem_cons] at hmem ⊢
    rcases hmem with heq | hmem
    · rw [List.foldl_cons, heq, Binary64.larger]
      split
      · exact .inr List.mem_cons_self
      · exact .inl rfl
    · exact .inr (List.mem_cons_of_mem y hmem)

/-- The largest of some numbers is finite only if all are. -/
theorem foldl_larger_bounds {xs : List Binary64} (hx : x.Unsigned) (hxs : ∀ y ∈ xs, y.Unsigned)
    (h : (xs.foldl Binary64.larger x).isFinite) :
    ∀ y ∈ x :: xs, y.isFinite ∧ y.value ≤ (xs.foldl Binary64.larger x).value := by
  induction xs generalizing x with
  | nil =>
    intro y hy
    obtain rfl := List.mem_singleton.mp hy
    exact ⟨h, le_rfl⟩
  | cons z xs ih =>
    obtain ⟨hz, hrest⟩ := List.forall_mem_cons.mp hxs
    obtain ⟨⟨hfinite, hle⟩, hrestLe⟩ := List.forall_mem_cons.mp (ih hx.larger hrest h)
    obtain ⟨⟨hxf, hxle⟩, hzf, hzle⟩ := larger_bounds hx hz hfinite
    exact List.forall_mem_cons.mpr ⟨⟨hxf, hxle.trans hle⟩,
      List.forall_mem_cons.mpr ⟨⟨hzf, hzle.trans hle⟩, hrestLe⟩⟩

end Order

end Binary64

end PatternLoom
