import Mathlib
import PatternLoom.Proofs.Binary64.Scaling

/-! Which numbers are not rounded to the nearest integer. The sum with one half is exact or rounded on
the right side of the next integer but for the last number below one half and, beyond `2^52`, the odd
integers, whose half the even neighbour takes. -/

namespace PatternLoom

section Half

attribute [local irreducible] unitsPerOne

/-- The spacing of the magnitudes right below one half. -/
@[irreducible]
def lastSpacing : Nat := 2 ^ 1020

theorem unitsPerHalf_eq : unitsPerHalf = 2 ^ 53 * lastSpacing := by
  unfold unitsPerHalf lastSpacing
  exact two_pow_split rfl

theorem lastSpacing_pos : 0 < lastSpacing := by
  unfold lastSpacing
  exact Nat.two_pow_pos _

theorem spacing_eq_last {u : Nat} (h : 2 ^ 52 * lastSpacing ≤ u) (h' : u < 2 ^ 53 * lastSpacing) :
    spacing u = lastSpacing := by
  have hlow : 2 ^ 52 * lastSpacing = 2 ^ 1072 := by
    unfold lastSpacing
    exact (two_pow_split rfl).symm
  have hhigh : 2 ^ 53 * lastSpacing = 2 ^ 1073 := by
    unfold lastSpacing
    exact (two_pow_split rfl).symm
  rw [hlow] at h
  rw [hhigh] at h'
  have hpos : u ≠ 0 := ((Nat.two_pow_pos _).trans_le h).ne'
  have hlog : u.log2 - 52 = 1020 := by
    have h₁ := (Nat.le_log2 hpos).mpr h
    have h₂ := (Nat.log2_lt hpos).mpr h'
    omega
  unfold lastSpacing
  rw [spacing, hlog, Nat.pow_eq]

/-- Below one half only the last magnitude is brought up to one. -/
theorem halfUp_of_lt_half {u : Nat} (hu : Precise u) (h : u < unitsPerHalf)
    (hne : u ≠ unitsPerHalf - lastSpacing) : halfUp u = 0 := by
  have hhalf := unitsPerHalf_eq
  have hone := unitsPerOne_eq
  have hpos := lastSpacing_pos
  have hle : u + 2 * lastSpacing ≤ unitsPerHalf := by
    by_contra hc
    rw [Precise, spacing_eq_last (by omega) (by omega)] at hu
    have hdvd : lastSpacing ∣ unitsPerHalf := hhalf ▸ Nat.dvd_mul_left _ _
    have hnext := Nat.le_of_lt_add_of_dvd (Nat.add_lt_add_right h lastSpacing)
      (hu.add (Nat.dvd_refl _)) hdvd
    have hlast := Nat.le_of_lt_add_of_dvd (show u + lastSpacing + lastSpacing <
      unitsPerHalf + lastSpacing by omega) ((hu.add (Nat.dvd_refl _)).add (Nat.dvd_refl _)) hdvd
    omega
  have hprecise : Precise ((2 ^ 53 - 1) * (2 * lastSpacing)) := by
    have hdouble : 2 * lastSpacing = 2 ^ 1021 := by
      unfold lastSpacing
      rw [two_pow_split (show 1 + 1020 = 1021 from rfl), Nat.pow_one]
    rw [hdouble]
    exact precise_mul_two_pow (by decide) 1021
  have hnear := hprecise.nearest_le Nat.one_pos (show u + unitsPerHalf ≤ _ by omega)
  exact Nat.div_eq_of_lt (by omega)

theorem halfUp_last : halfUp (unitsPerHalf - lastSpacing) = 1 := by
  unfold lastSpacing unitsPerHalf
  decide +kernel

theorem spacing_dvd_unitsPerHalf {u : Nat} (h : u < 2 ^ 52 * unitsPerOne) :
    spacing u ∣ unitsPerHalf := by
  have hlog : u.log2 < 52 + 1074 := by
    by_cases hu : u = 0
    · simp [hu]
    · exact log2_lt hu h
  rw [spacing, ← nat_pow_eq_unitsPerHalf]
  exact Nat.pow_dvd_pow 2 (by omega)

/-- Behind an integer the sum with one half is exact as long as it comes before the next one. -/
theorem precise_add_half {m u : Nat} (hm : 0 < m) (hu : Precise u) (hlow : m * unitsPerOne < u)
    (hhigh : u + unitsPerHalf < (m + 1) * unitsPerOne) (hlt : u < 2 ^ 52 * unitsPerOne) :
    Precise (u + unitsPerHalf) := by
  have hspacing := Binary64.two_pow_mul_spacing_of_between hm hlow.le ((Nat.le_add_right _ _).trans_lt hhigh)
  have hsame := Binary64.two_pow_mul_spacing_of_between hm (hlow.le.trans (Nat.le_add_right _ _)) hhigh
  rw [← hspacing] at hsame
  rw [Precise, Nat.eq_of_mul_eq_mul_left (Nat.two_pow_pos 52) hsame]
  exact hu.add (spacing_dvd_unitsPerHalf hlt)

/-- Up to `2^52` the integer nearest to a magnitude from one half on is found. -/
theorem halfUp_of_between {u : Nat} (hu : Precise u) (hlow : unitsPerHalf ≤ u)
    (hhigh : u < 2 ^ 52 * unitsPerOne) : halfUp u = (u + unitsPerHalf) / unitsPerOne := by
  have hone := unitsPerOne_eq
  have hpos := unitsPerOne_pos
  have htop := add_half_le hu hhigh
  have hfloor := Nat.div_mul_le_self (u + unitsPerHalf) unitsPerOne
  have hceil := (Nat.div_lt_iff_lt_mul hpos).mp (Nat.lt_succ_self ((u + unitsPerHalf) / unitsPerOne))
  have hm : 0 < (u + unitsPerHalf) / unitsPerOne := Nat.div_pos (by omega) hpos
  generalize (u + unitsPerHalf) / unitsPerOne = m at hfloor hceil hm ⊢
  have hle : m ≤ 2 ^ 52 := Nat.le_of_mul_le_mul_right (hfloor.trans htop) hpos
  have hprecise : Precise (m * unitsPerOne) := precise_mul_unitsPerOne (hle.trans (by decide))
  refine Nat.div_eq_of_lt_le (hprecise.le_nearest Nat.one_pos (by omega)) ?_
  rcases hle.lt_or_eq with hlt | rfl
  · rcases Nat.lt_or_ge (m * unitsPerOne) u with hbehind | hup
    · rwa [nearestMagnitude_self (precise_add_half hm hu hbehind hceil hhigh)]
    · have hmiddle : Precise ((2 * m + 1) * unitsPerHalf) := precise_mul_unitsPerHalf (by omega)
      have hsplit : (2 * m + 1) * unitsPerHalf = m * unitsPerOne + unitsPerHalf := by
        rw [hone]
        ring
      have hnear := hmiddle.nearest_le Nat.one_pos (show u + unitsPerHalf ≤ _ by omega)
      linarith
  · have hnear := hprecise.nearest_le Nat.one_pos (show u + unitsPerHalf ≤ _ by omega)
    linarith

/-- From `2^52` on an odd integer is taken to the next one. -/
theorem halfUp_large {k : Nat} (hk : 2 ^ 52 ≤ k) (h : Precise (k * unitsPerOne)) :
    halfUp (k * unitsPerOne) = k + k % 2 := by
  rw [halfUp, nearest_middle hk (.inl h), Nat.mul_div_cancel _ unitsPerOne_pos]

/-- Odd integers are no magnitudes from `2^53` on. -/
theorem lt_of_odd {k : Nat} (h : Precise (k * unitsPerOne)) (hk : k % 2 = 1) : k < 2 ^ 53 := by
  by_contra hc
  have hlarge := Nat.mul_le_mul_right unitsPerOne (Nat.le_of_not_lt hc)
  obtain ⟨j, hj⟩ := (two_mul_dvd_spacing hlarge).trans h
  have heven : k = 2 * j := Nat.eq_of_mul_eq_mul_right unitsPerOne_pos (by linarith)
  omega

/-- Up to `2^52` one half less is exact. -/
theorem precise_sub_half {u : Nat} (hu : Precise u) (h : u < 2 ^ 52 * unitsPerOne) :
    Precise (u - unitsPerHalf) :=
  (spacing_dvd_spacing (log2_mono (Nat.sub_le _ _))).trans
    (Nat.dvd_sub hu (spacing_dvd_unitsPerHalf h))

/-- From `2^52` on one half less than an odd integer is taken to the one before. -/
theorem nearest_sub_half {k : Nat} (hk : 2 ^ 52 < k) (h : Precise (k * unitsPerOne)) :
    nearestMagnitude (k * unitsPerOne - unitsPerHalf) 1 = (k - k % 2) * unitsPerOne := by
  have hone := unitsPerOne_eq
  obtain ⟨j, rfl⟩ : ∃ j, k = j + 1 := ⟨k - 1, by omega⟩
  have hsub : (j + 1) * unitsPerOne - unitsPerHalf = j * unitsPerOne + unitsPerHalf := by
    rw [Nat.succ_mul]
    omega
  rw [hsub, nearest_middle (by omega) (.inr h)]
  congr 1
  omega

end Half

namespace Binary64

attribute [local irreducible] unitsPerOne

theorem roundHalfUp_eq_units {x : Binary64} (hx : x.isFinite) :
    x.roundHalfUp = .ok ((x + 0.5).units / unitsPerOne) := by
  rw [roundHalfUp, floor_eq_ok]
  rwa [isFinite_add_half (isNan_of_isFinite hx)]

theorem units_ofUnits {negative : Bool} {num den : Nat} (h : (ofUnits negative num den).isFinite) :
    (ofUnits negative num den).units =
      if negative then -(nearestMagnitude num den : Int) else nearestMagnitude num den := by
  unfold ofUnits at h ⊢
  split
  · cases negative <;> rfl
  · rename_i hover
    rw [dif_neg hover] at h
    cases h

section Negative

variable {u : Nat} (hu : Representable u)

theorem true_add_half_of_le (h : u ≤ unitsPerHalf) :
    finite true u hu + 0.5 = ofUnits false (unitsPerHalf - u) 1 := by
  obtain ⟨hhalf, he⟩ := half_eq
  have hsum : -(u : Int) + unitsPerHalf = (unitsPerHalf - u : Nat) := by omega
  rw [he]
  change ofSignedUnits false (-(u : Int) + (unitsPerHalf : Int)) = _
  rw [hsum, ofSignedUnits_false]

theorem true_add_half_of_lt (h : unitsPerHalf < u) :
    finite true u hu + 0.5 = ofUnits true (u - unitsPerHalf) 1 := by
  obtain ⟨hhalf, he⟩ := half_eq
  have hneg : -(u : Int) + unitsPerHalf < 0 := by omega
  have habs : (-(u : Int) + unitsPerHalf).natAbs = u - unitsPerHalf := by omega
  rw [he]
  change ofSignedUnits false (-(u : Int) + (unitsPerHalf : Int)) = _
  rw [ofSignedUnits, if_neg hneg.ne, decide_eq_true hneg, habs]

theorem isFinite_true_add_half : (finite true u hu + 0.5).isFinite := by
  rw [isFinite_add_half rfl]
  rfl

/-- Up to one half below zero numbers are rounded to zero. -/
theorem roundHalfUp_true_of_le (h : u ≤ unitsPerHalf) : (finite true u hu).roundHalfUp = .ok 0 := by
  obtain ⟨hhalf, -⟩ := half_eq
  have hone := unitsPerOne_eq
  have hpos := unitsPerHalf_pos
  have hfinite := isFinite_true_add_half hu
  have hle := hhalf.precise.nearest_le Nat.one_pos (show unitsPerHalf - u ≤ _ by omega)
  rw [true_add_half_of_le hu h] at hfinite
  rw [roundHalfUp_eq_units rfl, true_add_half_of_le hu h, units_ofUnits hfinite, if_neg (by decide)]
  exact congrArg _ (Int.ediv_eq_zero_of_lt (by omega) (by omega))

theorem roundHalfUp_true_of_lt (h : unitsPerHalf < u) : (finite true u hu).roundHalfUp =
    .ok (-(nearestMagnitude (u - unitsPerHalf) 1 : Int) / unitsPerOne) := by
  have hfinite := isFinite_true_add_half hu
  rw [true_add_half_of_lt hu h] at hfinite
  rw [roundHalfUp_eq_units rfl, true_add_half_of_lt hu h, units_ofUnits hfinite, if_pos rfl]

end Negative

/-- The odd integers that one half can be added to, but not kept. -/
def PassedOver (n : Int) : Prop := n % 2 = 1 ∧ 2 ^ 52 < |n| ∧ |n| < 2 ^ 53

instance : DecidablePred PassedOver := fun _ => inferInstanceAs (Decidable (_ ∧ _ ∧ _))

/-- The numbers whose sum with one half is rounded to the next integer: the last one below one
half, and odd integers that have no bit left for the half. -/
def Overshoots (x : Binary64) : Prop :=
  x.value = 1 / 2 - 1 / 2 ^ 54 ∨ ∃ n : Int, PassedOver n ∧ x.value = n

section Units

variable {x : Binary64}

theorem value_eq_intCast_iff {n : Int} : x.value = n ↔ x.units = n * unitsPerOne := by
  rw [value, div_eq_iff cast_unitsPerOne_pos.ne']
  exact_mod_cast Iff.rfl

theorem value_eq_last_iff :
    x.value = 1 / 2 - 1 / 2 ^ 54 ↔ x.units = (unitsPerHalf - lastSpacing : Nat) := by
  have hhalf := unitsPerHalf_eq
  have hpos := lastSpacing_pos
  have hone : (unitsPerOne : ℚ) = 2 ^ 54 * lastSpacing := by
    rw [unitsPerOne_eq, hhalf]
    push_cast
    ring
  have hlast : (1 / 2 - 1 / 2 ^ 54 : ℚ) * unitsPerOne = (unitsPerHalf - lastSpacing : Nat) := by
    rw [Nat.cast_sub (by omega), hone, hhalf]
    push_cast
    ring
  rw [value, div_eq_iff cast_unitsPerOne_pos.ne', hlast]
  exact_mod_cast Iff.rfl

/-- The integer within one half, told by units. -/
theorem nearest_iff_units {n : Int} : (x.units + unitsPerHalf) / unitsPerOne = n ↔
    n - 1 / 2 ≤ x.value ∧ x.value < n + 1 / 2 := by
  have hone := cast_unitsPerOne_pos
  have hhalf : (unitsPerOne : ℚ) = 2 * unitsPerHalf := by exact_mod_cast unitsPerOne_eq
  have hpos : (0 : Int) < unitsPerOne := Int.natCast_pos.mpr unitsPerOne_pos
  rw [value, le_div_iff₀ hone, div_lt_iff₀ hone, le_antisymm_iff, ← Int.lt_add_one_iff,
    Int.ediv_lt_iff_lt_mul hpos, Int.le_ediv_iff_mul_le hpos, and_comm]
  refine and_congr ?_ ?_
  · rw [← @Int.cast_le ℚ]
    push_cast
    constructor <;> intro h <;> linarith
  · rw [← @Int.cast_lt ℚ]
    push_cast
    constructor <;> intro h <;> linarith

theorem whole_add_half_div (n : Int) : (n * unitsPerOne + unitsPerHalf) / unitsPerOne = n := by
  have hone := unitsPerOne_eq
  have hpos := unitsPerHalf_pos
  rw [add_comm, Int.add_mul_ediv_right _ _ (by omega), Int.ediv_eq_zero_of_lt (by omega) (by omega),
    zero_add]

theorem whole_div (n : Int) : n * unitsPerOne / unitsPerOne = n :=
  Int.mul_ediv_cancel n (Int.natCast_pos.mpr unitsPerOne_pos).ne'

end Units

section Exact

variable {u : Nat} {hu : Representable u}

theorem even_of_not_overshoots {negative : Bool} {k : Nat} {hk : Representable (k * unitsPerOne)}
    (hlarge : 2 ^ 52 ≤ k) (h : ¬ (finite negative (k * unitsPerOne) hk).Overshoots) : k % 2 = 0 := by
  by_contra hc
  have hodd : k % 2 = 1 := by omega
  have hlt := lt_of_odd hk.precise hodd
  refine h (.inr ⟨if negative then -k else k, ?_, value_eq_intCast_iff.mpr ?_⟩)
  · cases negative with
    | false => exact ⟨by simp; omega, by simp; omega, by simp; omega⟩
    | true => exact ⟨by simp; omega, by simp; omega, by simp; omega⟩
  · cases negative with
    | false => simp [units]
    | true => simp [units]

theorem roundHalfUp_false_of_not_overshoots (h : ¬ (finite false u hu).Overshoots) :
    (finite false u hu).roundHalfUp = .ok (((u : Int) + unitsPerHalf) / unitsPerOne) := by
  have hone := unitsPerOne_eq
  rw [roundHalfUp_finite hu]
  refine congrArg _ ?_
  rcases Nat.lt_or_ge u (2 ^ 52 * unitsPerOne) with hsmall | hlarge
  · rcases Nat.lt_or_ge u unitsPerHalf with hlt | hge
    · have hne : u ≠ unitsPerHalf - lastSpacing := fun he =>
        h (.inl (value_eq_last_iff.mpr (congrArg Nat.cast he)))
      rw [halfUp_of_lt_half hu.precise hlt hne, Int.ediv_eq_zero_of_lt (by omega) (by omega)]
      rfl
    · rw [halfUp_of_between hu.precise hge hsmall]
      push_cast
      rfl
  · obtain ⟨k, rfl⟩ := exists_eq_mul_left_of_dvd ((dvd_spacing hlarge).trans hu.precise)
    have hk := Nat.le_of_mul_le_mul_right hlarge unitsPerOne_pos
    rw [halfUp_large hk hu.precise, even_of_not_overshoots hk h, Nat.add_zero, Nat.cast_mul,
      whole_add_half_div]

theorem roundHalfUp_true_of_not_overshoots (h : ¬ (finite true u hu).Overshoots) :
    (finite true u hu).roundHalfUp = .ok ((-(u : Int) + unitsPerHalf) / unitsPerOne) := by
  have hone := unitsPerOne_eq
  have hpos := unitsPerHalf_pos
  rcases Nat.lt_or_ge unitsPerHalf u with hlt | hle
  · rw [roundHalfUp_true_of_lt hu hlt]
    refine congrArg _ ?_
    have hexact : Precise (u - unitsPerHalf) →
        -(nearestMagnitude (u - unitsPerHalf) 1 : Int) = -(u : Int) + unitsPerHalf := by
      intro hp
      rw [nearestMagnitude_self hp]
      omega
    rcases Nat.lt_or_ge u (2 ^ 52 * unitsPerOne) with hsmall | hlarge
    · rw [hexact (precise_sub_half hu.precise hsmall)]
    · obtain ⟨k, rfl⟩ := exists_eq_mul_left_of_dvd ((dvd_spacing hlarge).trans hu.precise)
      have hk := Nat.le_of_mul_le_mul_right hlarge unitsPerOne_pos
      rcases hk.lt_or_eq with hbehind | rfl
      · rw [nearest_sub_half hbehind hu.precise, even_of_not_overshoots hk h, Nat.sub_zero,
          Nat.cast_mul, ← neg_mul, whole_add_half_div, whole_div]
      · have hsub : 2 ^ 52 * unitsPerOne - unitsPerHalf = (2 ^ 53 - 1) * unitsPerHalf := by omega
        rw [hexact (hsub ▸ precise_mul_unitsPerHalf (by decide))]
  · rw [roundHalfUp_true_of_le hu hle, Int.ediv_eq_zero_of_lt (by omega) (by omega)]

end Exact

section Rounded

variable {x : Binary64}

/-- But for the numbers that overshoot, the nearest integer is found. -/
theorem roundHalfUp_of_not_overshoots (hx : x.isFinite) (h : ¬ x.Overshoots) :
    x.roundHalfUp = .ok ((x.units + unitsPerHalf) / unitsPerOne) := by
  obtain ⟨negative, u, hu, rfl⟩ := exists_finite hx
  cases negative with
  | false => exact roundHalfUp_false_of_not_overshoots h
  | true => exact roundHalfUp_true_of_not_overshoots h

/-- Units other than zero tell the sign and the magnitude. -/
theorem exists_finite_of_units (negative : Bool) {u : Nat} (hx : x.isFinite) (hpos : 0 < u)
    (h : x.units = if negative then -(u : Int) else u) : ∃ hu, x = finite negative u hu := by
  obtain ⟨b, v, hv, rfl⟩ := exists_finite hx
  obtain ⟨rfl, rfl⟩ : b = negative ∧ v = u := by
    cases b <;> cases negative <;> simp [units] at h ⊢ <;> omega
  exact ⟨hv, rfl⟩

theorem eq_false_of_units {u : Nat} (hx : x.isFinite) (hpos : 0 < u) (h : x.units = u) :
    ∃ hu, x = finite false u hu := by
  refine exists_finite_of_units false hx hpos ?_
  rw [h, if_neg (by decide)]

theorem eq_true_of_units {u : Nat} (hx : x.isFinite) (hpos : 0 < u) (h : x.units = -u) :
    ∃ hu, x = finite true u hu := by
  refine exists_finite_of_units true hx hpos ?_
  rw [h, if_pos rfl]

theorem roundHalfUp_of_passedOver (hx : x.isFinite) {n : Int} (hn : PassedOver n)
    (h : x.value = n) : x.roundHalfUp = .ok (n + 1) := by
  have hone := unitsPerOne_eq
  have hpos := unitsPerOne_pos
  obtain ⟨hodd, hlow, -⟩ := hn
  rw [value_eq_intCast_iff] at h
  obtain ⟨k, rfl | rfl⟩ := n.eq_nat_or_neg
  · rw [Nat.abs_cast] at hlow
    have hk : 2 ^ 52 < k := by exact_mod_cast hlow
    obtain ⟨hu, rfl⟩ := eq_false_of_units hx (Nat.mul_pos (show 0 < k by omega) hpos)
      (by exact_mod_cast h)
    have hrest : k % 2 = 1 := by omega
    rw [roundHalfUp_finite hu, halfUp_large hk.le hu.precise, hrest]
    rfl
  · rw [abs_neg, Nat.abs_cast] at hlow
    have hk : 2 ^ 52 < k := by exact_mod_cast hlow
    rw [neg_mul] at h
    obtain ⟨hu, rfl⟩ := eq_true_of_units hx (Nat.mul_pos (show 0 < k by omega) hpos)
      (by exact_mod_cast h)
    have hrest : k % 2 = 1 := by omega
    have hlarge := Nat.mul_le_mul_right unitsPerOne hk.le
    rw [roundHalfUp_true_of_lt hu (by omega), nearest_sub_half hk hu.precise, hrest, Nat.cast_mul,
      ← neg_mul, whole_div, Nat.cast_sub (by omega), neg_sub']
    rfl

/-- The numbers that overshoot come to the integer behind the nearest one. -/
theorem roundHalfUp_of_overshoots (hx : x.isFinite) (h : x.Overshoots) :
    x.roundHalfUp = .ok ((x.units + unitsPerHalf) / unitsPerOne + 1) := by
  have hone := unitsPerOne_eq
  have hhalf := unitsPerHalf_eq
  have hpos := lastSpacing_pos
  rcases h with hlast | ⟨n, hn, hvalue⟩
  · rw [value_eq_last_iff] at hlast
    obtain ⟨hu, rfl⟩ := eq_false_of_units hx (by omega) hlast
    rw [roundHalfUp_finite hu, halfUp_last, hlast, Int.ediv_eq_zero_of_lt (by omega) (by omega)]
    rfl
  · rw [roundHalfUp_of_passedOver hx hn hvalue, value_eq_intCast_iff.mp hvalue, whole_add_half_div]

theorem roundHalfUp_eq_ok_iff (hx : x.isFinite) (h : ¬ x.Overshoots) {n : Int} :
    x.roundHalfUp = .ok n ↔ n - 1 / 2 ≤ x.value ∧ x.value < n + 1 / 2 := by
  rw [roundHalfUp_of_not_overshoots hx h, Except.ok.injEq, nearest_iff_units]

theorem not_overshoots_of_whole {n : Int} (h : x.value = n) (hn : ¬ PassedOver n) :
    ¬ x.Overshoots := by
  rintro (hlast | ⟨m, hm, hvalue⟩)
  · rw [h] at hlast
    have hbetween : (0 : ℚ) < n ∧ (n : ℚ) < 1 := by
      rw [hlast]
      norm_num
    have hlow : 0 < n := by exact_mod_cast hbetween.1
    have hhigh : n < 1 := by exact_mod_cast hbetween.2
    omega
  · obtain rfl : n = m := by exact_mod_cast h.symm.trans hvalue
    exact hn hm

/-- An integer is rounded to itself unless it is passed over. -/
theorem roundHalfUp_whole (hx : x.isFinite) {n : Int} (h : x.value = n) :
    x.roundHalfUp = .ok (if PassedOver n then n + 1 else n) := by
  by_cases hn : PassedOver n
  · rw [if_pos hn, roundHalfUp_of_passedOver hx hn h]
  · rw [if_neg hn, roundHalfUp_of_not_overshoots hx (not_overshoots_of_whole h hn),
      value_eq_intCast_iff.mp h, whole_add_half_div]

end Rounded

/-- What a number is rounded to: the integer within one half of it, a half going up, and for the
numbers that overshoot the one behind that. Requests for bars are rounded alike. -/
structure RoundsHalfUp (x : Binary64) : Prop where
  nearest : ¬ x.Overshoots → ∀ n : Int,
    x.roundHalfUp = .ok n ↔ n - 1 / 2 ≤ x.value ∧ x.value < n + 1 / 2
  next : x.Overshoots → ∀ n : Int,
    x.roundHalfUp = .ok (n + 1) ↔ n - 1 / 2 ≤ x.value ∧ x.value < n + 1 / 2
  whole : ∀ n : Int, x.value = n → x.roundHalfUp = .ok (if PassedOver n then n + 1 else n)
  bars : ∀ n : Int, 1 ≤ n → x.value = n → safeBars x = .ok (if PassedOver n then n + 1 else n)

theorem roundsHalfUp_of_isFinite {x : Binary64} (hx : x.isFinite) : x.RoundsHalfUp where
  nearest h _ := roundHalfUp_eq_ok_iff hx h
  next h n := by
    rw [roundHalfUp_of_overshoots hx h, Except.ok.injEq, add_left_inj, nearest_iff_units]
  whole n h := roundHalfUp_whole hx h
  bars n hpos h := by
    rw [safeBars, if_pos hx]
    refine bind_eq_ok.mpr ⟨_, roundHalfUp_whole hx h, ?_⟩
    rw [max_eq_right (by split <;> omega)]
    rfl

theorem oddInteger_roundsHalfUp : (4503599627370497 : Binary64).isFinite = true ∧
    RoundsHalfUp 4503599627370497 := by
  have hfinite : (4503599627370497 : Binary64).isFinite = true := by decide +kernel
  exact ⟨hfinite, roundsHalfUp_of_isFinite hfinite⟩

/-- The last number below one half is taken to one, and the first odd integer beyond `2^52` to the
next one, as a request for that many bars is. -/
theorem nearest_passedOver :
    ((0.49999999999999994 : Binary64).value = 1 / 2 - 1 / 2 ^ 54 ∧
      roundHalfUp 0.49999999999999994 = .ok 1) ∧
    (4503599627370497 : Binary64).value = (4503599627370497 : Int) ∧
      roundHalfUp 4503599627370497 = .ok 4503599627370498 ∧
      safeBars 4503599627370497 = .ok 4503599627370498 := by
  refine ⟨⟨value_eq_last_iff.mpr ?_, by decide +kernel⟩, value_eq_intCast_iff.mpr ?_,
    by decide +kernel, by decide +kernel⟩
  · unfold lastSpacing unitsPerHalf
    decide +kernel
  · decide +kernel

end Binary64
end PatternLoom

