import Mathlib
import PatternLoom.Proofs.Binary64.Value
import PatternLoom.Proofs.Binary64.Whole

/-! Powers of two scale magnitudes without rounding. So on a grid of a power of two steps a
number and the one that is a step later, each of them rounded, never fall on the same step. -/

namespace PatternLoom

theorem log2_two_pow_mul {u : Nat} (hu : u ≠ 0) (j : Nat) : (2 ^ j * u).log2 = j + u.log2 := by
  have hne : 2 ^ j * u ≠ 0 := Nat.mul_ne_zero (Nat.two_pow_pos j).ne' hu
  refine (Nat.log2_eq_iff hne).mpr ⟨?_, ?_⟩
  · rw [Nat.pow_add]
    exact Nat.mul_le_mul_left _ (Nat.log2_self_le hu)
  · rw [Nat.add_assoc, Nat.pow_add]
    exact Nat.mul_lt_mul_of_pos_left Nat.lt_log2_self (Nat.two_pow_pos j)

theorem Precise.two_pow_mul {u : Nat} (h : Precise u) (j : Nat) : Precise (2 ^ j * u) := by
  by_cases hu : u = 0
  · rw [hu, Nat.mul_zero]
    exact Nat.dvd_zero _
  · have hdvd : spacing (2 ^ j * u) ∣ 2 ^ j * spacing u := by
      rw [spacing, spacing, log2_two_pow_mul hu, Nat.pow_eq, Nat.pow_eq, ← Nat.pow_add]
      exact Nat.pow_dvd_pow 2 (by omega)
    exact hdvd.trans (Nat.mul_dvd_mul_left _ h)

theorem nearestEven_mul_mul {c : Nat} (hc : 0 < c) (num den : Nat) :
    nearestEven (c * num) (c * den) = nearestEven num den := by
  unfold nearestEven
  dsimp only
  simp only [Nat.mul_div_mul_left _ _ hc, Nat.mul_mod_mul_left, Nat.mul_left_comm 2 c,
    Nat.mul_lt_mul_left hc, Nat.mul_right_inj hc.ne']

section AllBits

variable {u : Nat}

theorem spacing_two_pow_mul (h : 52 ≤ u.log2) (j : Nat) :
    spacing (2 ^ j * u) = 2 ^ j * spacing u := by
  have hu : u ≠ 0 := by
    rintro rfl
    simp at h
  rw [spacing, spacing, log2_two_pow_mul hu, Nat.pow_eq, Nat.pow_eq, ← Nat.pow_add]
  congr 1
  omega

/-- Where magnitudes have all their bits, rounding commutes with doubling. -/
theorem nearestMagnitude_two_pow_mul (h : 52 ≤ u.log2) (j : Nat) :
    nearestMagnitude (2 ^ j * u) 1 = 2 ^ j * nearestMagnitude u 1 := by
  rw [nearestMagnitude, nearestMagnitude, Nat.div_one, Nat.div_one, Nat.one_mul, Nat.one_mul,
    spacing_two_pow_mul h, nearestEven_mul_mul (Nat.two_pow_pos j), Nat.mul_left_comm]

theorem Precise.of_two_pow_mul {j : Nat} (h : Precise (2 ^ j * u)) (hu : 52 ≤ u.log2) :
    Precise u := by
  rw [Precise, spacing_two_pow_mul hu] at h
  exact Nat.dvd_of_mul_dvd_mul_left (Nat.two_pow_pos j) h

end AllBits

/-- An even count is reached from half a step below it. -/
theorem le_nearestEven_of_even {num step k : Nat} (hpos : 0 < step)
    (h : 2 * (step * (2 * k)) ≤ 2 * num + step) : 2 * k ≤ nearestEven num step := by
  have hdiv := Nat.div_add_mod num step
  rcases Nat.lt_or_ge (num / step) (2 * k) with hlt | hge
  · -- the count below is the odd neighbour, and the rest is at least half a step
    have hlow : 2 * k ≤ num / step + 1 := by
      have hmod := Nat.mod_lt num hpos
      have hcross : step * (4 * k) < step * (2 * (num / step) + 3) := by linarith
      have hcounts := Nat.lt_of_mul_lt_mul_left hcross
      omega
    have hodd : num / step + 1 = 2 * k := le_antisymm hlt hlow
    have hrest : step ≤ 2 * (num % step) := by
      have he : step * (num / step) + step = step * (2 * k) := by
        rw [← Nat.mul_succ, Nat.succ_eq_add_one, hodd]
      omega
    unfold nearestEven
    dsimp only
    split
    · omega
    · omega
  · exact hge.trans (le_nearestEven num step)

/-- An even multiple of the spacing is reached from half a spacing below it. -/
theorem le_nearestMagnitude_of_even {num den r : Nat} (hd : 0 < den)
    (hr : 2 * spacing (num / den) ∣ r) (h : 2 * (r * den) ≤ 2 * num + den * spacing (num / den)) :
    r ≤ nearestMagnitude num den := by
  have hpos : 0 < den * spacing (num / den) := Nat.mul_pos hd (spacing_pos _)
  obtain ⟨k, rfl⟩ := hr
  have he : 2 * (2 * spacing (num / den) * k * den) =
      2 * (den * spacing (num / den) * (2 * k)) := by ring
  have hcount : 2 * k ≤ nearestEven num (den * spacing (num / den)) :=
    le_nearestEven_of_even hpos (he ▸ h)
  calc 2 * spacing (num / den) * k
      = 2 * k * spacing (num / den) := Nat.mul_right_comm _ _ _
    _ ≤ nearestMagnitude num den := Nat.mul_le_mul_right _ hcount

section Half

attribute [local irreducible] unitsPerOne

theorem two_mul_spacing_dvd_unitsPerHalf {u : Nat} (h : u < 2 ^ 51 * unitsPerOne) :
    2 * spacing u ∣ unitsPerHalf := by
  have hlog : u.log2 < 51 + 1074 := by
    by_cases hu : u = 0
    · simp [hu]
    · exact log2_lt hu h
  have hdouble : 2 * spacing u = Nat.pow 2 (1 + (u.log2 - 52)) := by
    rw [spacing, Nat.pow_eq, Nat.pow_eq, Nat.pow_add, Nat.pow_one]
  have hle : 1 + (u.log2 - 52) ≤ 1073 := by omega
  rw [hdouble, ← nat_pow_eq_unitsPerHalf]
  exact Nat.pow_dvd_pow 2 hle

/-- One more, rounded, is rounded to a later integer, also from a tie. -/
theorem halfUp_lt_add_one {u : Nat} (h : halfUp u ≤ 2 ^ 49) :
    halfUp u < halfUp (nearestMagnitude (u + unitsPerOne) 1) := by
  have hhalf := unitsPerHalf_pos
  have hone := unitsPerOne_eq
  have hbelow : halfUp u * unitsPerOne ≤ nearestMagnitude (u + unitsPerHalf) 1 :=
    Nat.div_mul_le_self _ _
  obtain ⟨herror, -⟩ := @nearestMagnitude_error (u + unitsPerHalf) 1 Nat.one_pos
  rw [Nat.div_one, Nat.mul_one, Nat.one_mul] at herror
  generalize halfUp u = m at *
  have hprecise : Precise ((2 * m + 1) * unitsPerHalf) := precise_mul_unitsPerHalf (by omega)
  have hreached : (2 * m + 1) * unitsPerHalf ≤ nearestMagnitude (u + unitsPerOne) 1 := by
    rcases Nat.lt_or_ge (u + unitsPerOne) ((2 * m + 1) * unitsPerHalf) with hlt | hge
    · have hmono : spacing (u + unitsPerHalf) ≤ spacing (u + unitsPerOne) :=
        Nat.le_of_dvd (spacing_pos _) (spacing_dvd_spacing (log2_mono (by omega)))
      have hsmall : u + unitsPerOne < 2 ^ 51 * unitsPerOne := by
        have hle := Nat.mul_le_mul_right unitsPerHalf (show 2 * m + 1 ≤ 2 ^ 52 by omega)
        omega
      have hdvd := (two_mul_spacing_dvd_unitsPerHalf hsmall).trans (Nat.dvd_mul_left _ (2 * m + 1))
      have he : (2 * m + 1) * unitsPerHalf = m * unitsPerOne + unitsPerHalf := by
        rw [hone]
        ring
      refine le_nearestMagnitude_of_even Nat.one_pos (by rwa [Nat.div_one]) ?_
      rw [Nat.div_one, Nat.mul_one, Nat.one_mul]
      omega
    · exact hprecise.le_nearest Nat.one_pos (by omega)
  have hsum : (2 * m + 1) * unitsPerHalf + unitsPerHalf = (m + 1) * unitsPerOne := by
    rw [hone]
    ring
  have hnext : halfUp ((2 * m + 1) * unitsPerHalf) = m + 1 := by
    rw [halfUp, hsum, nearestMagnitude_self (precise_mul_unitsPerOne (by omega)),
      Nat.mul_div_cancel _ unitsPerOne_pos]
  calc m < halfUp ((2 * m + 1) * unitsPerHalf) := by omega
    _ ≤ halfUp (nearestMagnitude (u + unitsPerOne) 1) := halfUp_mono hreached

end Half

namespace Binary64

theorem unitsPerOne_split {k : Nat} (hk : k ≤ 1074) : unitsPerOne = 2 ^ k * 2 ^ (1074 - k) :=
  two_pow_split (Nat.add_sub_cancel' hk)

/-- Dividing by a power of two is exact. -/
theorem ofFraction_two_pow {m k : Nat} (hm : m ≤ 2 ^ 53) (hk : k ≤ 1074) :
    ((ofFraction false m (2 ^ k)).Unsigned ∧ (ofFraction false m (2 ^ k)).isFinite) ∧
      (ofFraction false m (2 ^ k)).value = m / 2 ^ k := by
  have hfin : (ofFraction false m (2 ^ k)).isFinite := by
    rw [isFinite_ofFraction (Nat.two_pow_pos k)]
    calc m * unitsPerOne
        ≤ 2 ^ 110 * unitsPerOne := Nat.mul_le_mul_right _ (hm.trans (by decide))
      _ < overflow := two_pow_mul_unitsPerOne_lt
      _ ≤ overflow * 2 ^ k := Nat.le_mul_of_pos_right _ (Nat.two_pow_pos k)
  have hrounding := isRounding_ofFraction m (Nat.two_pow_pos k)
  have hunits : (unitsPerOne : ℚ) = 2 ^ k * 2 ^ (1074 - k) := by
    rw [unitsPerOne_split hk]
    push_cast
    rfl
  obtain ⟨_, he⟩ := hrounding.eq_finite hfin (precise_mul_two_pow hm (1074 - k)) (by
    rw [hunits]
    push_cast
    field_simp)
  refine ⟨⟨hrounding.unsigned, hfin⟩, ?_⟩
  rw [he, value_finite, hunits]
  push_cast
  field_simp

theorem ofFraction_one {m : Nat} (hm : m ≤ 2 ^ 53) :
    ((ofFraction false m 1).Unsigned ∧ (ofFraction false m 1).isFinite) ∧
      (ofFraction false m 1).value = m := by
  have hwhole := ofFraction_two_pow hm (Nat.zero_le 1074)
  simpa only [pow_zero, div_one] using hwhole

/-- A value that is a whole number of parts of a power of two is not rounded. -/
theorem IsRounding.exact {z : Binary64} {v : ℚ} {n k : Nat}
    (h : IsRounding z v) (hv : v * 2 ^ k = n) (hn : n ≤ 2 ^ 53)
    (hk : k ≤ 1074) : z.isFinite ∧ z.value = v := by
  have hpos : (2 : ℚ) ^ k ≠ 0 := by positivity
  obtain rfl : v = n / 2 ^ k := (eq_div_iff hpos).mpr hv
  obtain ⟨⟨-, hfin⟩, hvalue⟩ := ofFraction_two_pow hn hk
  have hround := isRounding_ofFraction n (Nat.two_pow_pos k)
  push_cast at hround
  rw [h.unique hround]
  exact ⟨hfin, hvalue⟩

theorem IsRounding.exact_natCast {z : Binary64} {n : Nat} (h : IsRounding z n) (hn : n ≤ 2 ^ 53) :
    z.isFinite ∧ z.value = n :=
  h.exact (show (n : ℚ) * 2 ^ 0 = n by rw [pow_zero, mul_one]) hn (Nat.zero_le 1074)

section Bounds

variable {z : Binary64} {v : ℚ} {m k : Nat}

/-- A bound that counts parts of a power of two is kept by rounding. -/
theorem IsRounding.le_two_pow (h : IsRounding z v) (hv : v ≤ m / 2 ^ k) (hm : m ≤ 2 ^ 53)
    (hk : k ≤ 1074) : z.isFinite ∧ z.value ≤ m / 2 ^ k := by
  obtain ⟨hexact, hvalue⟩ := ofFraction_two_pow hm hk
  have hzero : (0 : Binary64).value ≤ v := value_zero.trans_le h.nonneg
  obtain ⟨hfin, -, hle⟩ := h.between ⟨unsigned_zero, isFinite_zero⟩ hexact hzero
    (hv.trans_eq hvalue.symm)
  exact ⟨hfin, hle.trans_eq hvalue⟩

theorem IsRounding.two_pow_le (h : IsRounding z v) (hz : z.isFinite) (hv : m / 2 ^ k ≤ v)
    (hm : m ≤ 2 ^ 53) (hk : k ≤ 1074) : m / 2 ^ k ≤ z.value := by
  obtain ⟨hexact, hvalue⟩ := ofFraction_two_pow hm hk
  rw [← hvalue]
  exact (isRounding_self hexact.1 hexact.2).mono h hexact.2 hz (hvalue.trans_le hv)

theorem IsRounding.le_natCast (h : IsRounding z v) (hv : v ≤ m) (hm : m ≤ 2 ^ 53) :
    z.value ≤ m := by
  have hle := (h.le_two_pow (by rwa [pow_zero, div_one]) hm (Nat.zero_le 1074)).2
  rwa [pow_zero, div_one] at hle

end Bounds

theorem spacing_le_of_lt {u e : Nat} (h : u < 2 ^ e * unitsPerOne) :
    2 ^ 53 * spacing u ≤ 2 ^ e * unitsPerOne := by
  rw [two_pow_mul_unitsPerOne] at h ⊢
  have hlog : u.log2 - 52 + 53 ≤ e + 1074 := by
    by_cases hu : u = 0
    · subst hu
      simp
    · have hlt := (Nat.log2_lt hu).mpr h
      omega
  rw [spacing, Nat.pow_eq, ← Nat.pow_add]
  exact Nat.pow_le_pow_right two_pos (by omega)

/-- Below a power of two one rounding is off by half of the spacing there. -/
theorem IsRounding.abs_sub_le_of_lt {z : Binary64} {v : ℚ} {e : Nat} (h : IsRounding z v) (hz : z.isFinite)
    (hv : v < 2 ^ e) : |z.value - v| ≤ 2 ^ e / 2 ^ 54 := by
  obtain ⟨num, den, hd, hnum, he⟩ := h
  rw [he] at hz ⊢
  have hpos := cast_unitsPerOne_pos
  have hdq : (0 : ℚ) < den := Nat.cast_pos.mpr hd
  have hlt : num / den < 2 ^ e * unitsPerOne := by
    rw [Nat.div_lt_iff_lt_mul hd]
    have hq := mul_lt_mul_of_pos_right hv hpos
    rw [hnum, div_lt_iff₀ hdq] at hq
    exact_mod_cast hq
  have hspacing : (2 : ℚ) ^ 53 * spacing (num / den) ≤ 2 ^ e * unitsPerOne := by
    exact_mod_cast spacing_le_of_lt hlt
  obtain ⟨hhigh, hlow⟩ := @nearestMagnitude_error num den hd
  have hhigh' : 2 * ((nearestMagnitude num den : ℚ) * den) ≤
      2 * num + den * spacing (num / den) := by exact_mod_cast hhigh
  have hlow' : 2 * (num : ℚ) ≤
      2 * (nearestMagnitude num den * den) + den * spacing (num / den) := by exact_mod_cast hlow
  have hvalue : (num : ℚ) / den * den = num := div_mul_cancel₀ _ hdq.ne'
  refine le_of_mul_le_mul_right ?_ hpos
  rw [abs_value_sub hz hnum]
  refine le_trans (abs_le.mpr ⟨?_, ?_⟩) (show (spacing (num / den) : ℚ) / 2 ≤ _ by linarith)
  · refine le_of_mul_le_mul_right ?_ hdq
    linarith
  · refine le_of_mul_le_mul_right ?_ hdq
    linarith

section Below

attribute [local irreducible] unitsPerOne

theorem two_pow_mul_spacing_of_between {u m : Nat} (hm : 0 < m) (hlow : m * unitsPerOne ≤ u)
    (hhigh : u < (m + 1) * unitsPerOne) : 2 ^ 52 * spacing u = 2 ^ m.log2 * unitsPerOne := by
  have hfloor : 2 ^ m.log2 * unitsPerOne ≤ u :=
    (Nat.mul_le_mul_right _ (Nat.log2_self_le hm.ne')).trans hlow
  have hceil : u < 2 ^ (m.log2 + 1) * unitsPerOne :=
    hhigh.trans_le (Nat.mul_le_mul_right _ Nat.lt_log2_self)
  have hlog : u.log2 = m.log2 + 1074 := by
    refine (Nat.log2_eq_iff (ne_zero_of_le hfloor)).mpr ⟨?_, ?_⟩
    · rwa [← two_pow_mul_unitsPerOne]
    · rwa [Nat.add_right_comm, ← two_pow_mul_unitsPerOne]
  have hle : 52 ≤ m.log2 + 1074 := by omega
  rw [spacing, hlog, Nat.pow_eq, ← Nat.pow_add, Nat.add_sub_cancel' hle, two_pow_mul_unitsPerOne]

theorem mul_unitsPerOne_le_nearestMagnitude {num den n : Nat} (hd : 0 < den) (hpos : 2 ≤ n)
    (hn : n ≤ 2 ^ 51) (hlow : (n - 1) * unitsPerOne ≤ num / den)
    (hhigh : num / den < n * unitsPerOne)
    (hclose : 2 ^ 53 * (n * unitsPerOne * den) ≤
      2 ^ 53 * num + 2 ^ (n - 1).log2 * unitsPerOne * den) :
    n * unitsPerOne ≤ nearestMagnitude num den := by
  have hdvd : 2 * spacing (num / den) ∣ n * unitsPerOne := by
    have hhalf := two_mul_spacing_dvd_unitsPerHalf (hhigh.trans_le (Nat.mul_le_mul_right _ hn))
    rw [unitsPerOne_eq]
    exact (hhalf.trans (Nat.dvd_mul_left _ 2)).trans (Nat.dvd_mul_left _ n)
  have hnext : n - 1 + 1 = n := by omega
  rw [← two_pow_mul_spacing_of_between (by omega) hlow (by rwa [hnext])] at hclose
  refine le_nearestMagnitude_of_even hd hdvd (Nat.le_of_mul_le_mul_left ?_ (Nat.two_pow_pos 52))
  linarith

theorem IsRounding.natCast_le_of_close {z : Binary64} {v : ℚ} {n : Nat} (h : IsRounding z v)
    (hz : z.isFinite) (hpos : 2 ≤ n) (hn : n ≤ 2 ^ 51) (hlt : v < n)
    (hclose : n - v ≤ 2 ^ (n - 1).log2 / 2 ^ 53) : (n : ℚ) ≤ z.value := by
  obtain ⟨num, den, hd, hv, he⟩ := h
  have hdq : (0 : ℚ) < den := Nat.cast_pos.mpr hd
  have hone := cast_unitsPerOne_pos
  have hnum : (num : ℚ) = v * unitsPerOne * den := by rw [hv, div_mul_cancel₀ _ hdq.ne']
  have hunit : ((2 : ℚ) ^ (n - 1).log2) / 2 ^ 53 ≤ 1 := by
    have hlog : (n - 1).log2 < 51 := (Nat.log2_lt (by omega)).mpr (by omega)
    rw [div_le_one (by positivity)]
    exact pow_le_pow_right₀ (by norm_num) (by omega)
  have hlow : (n - 1) * unitsPerOne ≤ num / den := by
    rw [Nat.le_div_iff_mul_le hd, ← @Nat.cast_le ℚ, hnum]
    push_cast [show 1 ≤ n by omega]
    gcongr
    linarith
  have hhigh : num / den < n * unitsPerOne := by
    rw [Nat.div_lt_iff_lt_mul hd, ← @Nat.cast_lt ℚ, hnum]
    push_cast
    gcongr
  have hreached : n * unitsPerOne ≤ nearestMagnitude num den := by
    refine mul_unitsPerOne_le_nearestMagnitude hd hpos hn hlow hhigh ?_
    have hgap := mul_le_mul_of_nonneg_right hclose (mul_nonneg hone.le hdq.le)
    rw [← @Nat.cast_le ℚ]
    push_cast
    rw [hnum]
    linarith
  rw [he] at hz ⊢
  rw [value_ofUnits hz, le_div_iff₀ hone]
  exact_mod_cast hreached

/-- A whole number is reached from half the spacing of the numbers below it, the tie included as its
last bit is even. -/
theorem IsRounding.natCast_le_iff {z : Binary64} {v : ℚ} {n : Nat} (h : IsRounding z v)
    (hz : z.isFinite) (hpos : 2 ≤ n) (hn : n ≤ 2 ^ 51) :
    (n : ℚ) ≤ z.value ↔ n - v ≤ 2 ^ (n - 1).log2 / 2 ^ 53 := by
  rcases le_or_gt (n : ℚ) v with hle | hlt
  · obtain ⟨hwhole, hvalue⟩ := ofFraction_one (hn.trans (show 2 ^ 51 ≤ 2 ^ 53 by decide))
    have hreached := (isRounding_self hwhole.1 hwhole.2).mono h hwhole.2 hz (hvalue.trans_le hle)
    rw [hvalue] at hreached
    have hhalf : (0 : ℚ) ≤ 2 ^ (n - 1).log2 / 2 ^ 53 := by positivity
    exact iff_of_true hreached (by linarith)
  constructor
  · intro hreached
    have hbelow : v < 2 ^ ((n - 1).log2 + 1) := by
      have hnext : n ≤ 2 ^ ((n - 1).log2 + 1) := by
        have hlog := @Nat.lt_log2_self (n - 1)
        omega
      exact hlt.trans_le (by exact_mod_cast hnext)
    have herror := (abs_le.mp (h.abs_sub_le_of_lt hz hbelow)).2
    rw [pow_succ] at herror
    linarith
  · exact h.natCast_le_of_close hz hpos hn hlt

end Below

theorem isRounding_div_whole {x : Binary64} (hx : x.Unsigned) (hxf : x.isFinite) {n : Nat}
    (hpos : 0 < n) (hn : n ≤ 2 ^ 53) :
    IsRounding (x / ofFraction false n 1) (x.value / n) := by
  obtain ⟨⟨hunsigned, hfin⟩, hvalue⟩ := ofFraction_one hn
  have hround := isRounding_div hx hunsigned hxf hfin (by rw [hvalue]; exact_mod_cast hpos)
  rwa [hvalue] at hround

/-- Doubling is exact unless it leaves the range. -/
theorem value_two_mul {x : Binary64} (hx : x.Unsigned) (hxf : x.isFinite)
    (h : (2 * x).isFinite) : (2 * x).Unsigned ∧ (2 * x).value = 2 * x.value := by
  obtain ⟨⟨htwo, htwof⟩, hvalue⟩ := @ofFraction_one 2 (by decide)
  have hround := isRounding_mul htwo hx htwof hxf
  obtain ⟨u, hu, rfl⟩ := hx.exists_magnitude hxf
  have hpos := cast_unitsPerOne_pos.ne'
  obtain ⟨_, he⟩ := hround.eq_finite h (hu.precise.two_pow_mul 1) (by
    rw [hvalue, value_finite]
    push_cast
    field_simp)
  refine ⟨hround.unsigned, ?_⟩
  change (ofFraction false 2 1 * finite false u hu).value = _
  rw [he, value_finite, value_finite]
  push_cast
  ring

theorem ofInt_eq_whole {n : Nat} (h : n < 2 ^ 52) :
    ∃ x, ofInt n = .ok x ∧ (x.Unsigned ∧ x.isFinite) ∧ x.value = n := by
  obtain ⟨x, hx, hfin, _⟩ := settled_of_lt h
  have hrounding := isRounding_ofInt hx
  obtain ⟨_, rfl⟩ := hrounding.eq_finite hfin (precise_mul_unitsPerOne (h.le.trans (by decide)))
    (by push_cast; rfl)
  refine ⟨_, hx, ⟨hrounding.unsigned, rfl⟩, ?_⟩
  rw [value_finite, Nat.cast_mul, mul_div_cancel_right₀ _ cast_unitsPerOne_pos.ne']

/-- What rounds a whole number that is not too large has it for its integer part. -/
theorem IsRounding.floor_eq {z : Binary64} {m : Nat} (h : IsRounding z m) (hm : m ≤ 2 ^ 53) :
    z.floor = .ok m := by
  obtain ⟨hwhole, hvalue⟩ := ofFraction_one hm
  obtain ⟨hfin, hlow, hhigh⟩ := h.between hwhole hwhole hvalue.le hvalue.ge
  have hfloor := floor_eq_ok hfin
  obtain ⟨hbelow, habove⟩ := floor_le_value hfloor
  rw [← le_antisymm hlow hhigh, hvalue] at hbelow habove
  have hle : z.units / (unitsPerOne : Int) ≤ m := by exact_mod_cast hbelow
  have hlt : (m : Int) < z.units / (unitsPerOne : Int) + 1 := by exact_mod_cast habove
  rw [hfloor, le_antisymm hle (Int.lt_add_one_iff.mp hlt)]

end Binary64

end PatternLoom
