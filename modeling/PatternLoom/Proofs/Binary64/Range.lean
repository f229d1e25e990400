import Mathlib
import PatternLoom.Binary64.Arithmetic

/-! The range of the numbers: how far a rounded magnitude can lie from the exact one, and
from where on it is infinite. -/

namespace PatternLoom

/-- Half the spacing of the largest magnitudes. -/
@[irreducible]
def halfSpacing : Nat := 2 ^ 2044

/-- The least magnitude that is rounded to an infinity. -/
def overflow : Nat := (2 ^ 54 - 1) * halfSpacing

theorem halfSpacing_pos : 0 < halfSpacing := by
  unfold halfSpacing
  exact Nat.two_pow_pos _

theorem unitsPerOne_pos : 0 < unitsPerOne := Nat.two_pow_pos _

theorem two_pow_split {a b n : Nat} (h : a + b = n) : 2 ^ n = 2 ^ a * 2 ^ b := by
  rw [← h, Nat.pow_add]

theorem topSpacing_eq : 2 ^ 2045 = 2 * halfSpacing := by
  unfold halfSpacing
  rw [two_pow_split (show 1 + 2044 = 2045 from rfl), Nat.pow_one]

theorem topBinade_eq : 2 ^ 2097 = 2 ^ 53 * halfSpacing := by
  unfold halfSpacing
  exact two_pow_split rfl

theorem magnitudeBound_eq : magnitudeBound = 2 ^ 54 * halfSpacing := by
  unfold magnitudeBound halfSpacing
  exact two_pow_split rfl

/-- A rounded count is off by half a unit at most. -/
theorem nearestEven_mul_le (num den : Nat) :
    2 * (nearestEven num den * den) ≤ 2 * num + den := by
  have hd := Nat.div_add_mod num den
  rw [Nat.mul_comm] at hd
  unfold nearestEven
  dsimp only
  split
  · omega
  · rw [Nat.add_mul]
    omega

theorem spacing_le_self {u : Nat} (hu : u ≠ 0) : spacing u ≤ u :=
  (Nat.pow_le_pow_right (by decide) (Nat.sub_le _ _)).trans (Nat.log2_self_le hu)

/-- Rounding at most doubles a magnitude, but for what is below the least unit. -/
theorem nearestMagnitude_le (num den : Nat) :
    nearestMagnitude num den ≤ 2 * (num / den) + 1 := by
  unfold nearestMagnitude
  dsimp only
  have hn := nearestEven_le num (den * spacing (num / den))
  rw [← Nat.div_div_eq_div_mul] at hn
  have hm := Nat.mul_le_mul_right (spacing (num / den)) hn
  have hq := Nat.div_mul_le_self (num / den) (spacing (num / den))
  rw [Nat.add_mul, Nat.one_mul] at hm
  by_cases hz : num / den = 0
  · simp only [hz] at hm ⊢
    simpa [spacing] using hm
  · have hs := spacing_le_self hz
    omega

theorem spacing_le {u : Nat} (h : u < magnitudeBound) : spacing u ≤ 2 * halfSpacing := by
  rw [← topSpacing_eq]
  apply Nat.pow_le_pow_right (by decide)
  by_cases hu : u = 0
  · simp [hu]
  · have := (Nat.log2_lt hu).2 h
    omega

theorem spacing_eq {u : Nat} (h : overflow ≤ u) (hu : u < magnitudeBound) :
    spacing u = 2 * halfSpacing := by
  have hlow : 2 ^ 2097 ≤ u := by
    rw [topBinade_eq]
    exact (Nat.mul_le_mul_right _ (by decide)).trans h
  have hpos : u ≠ 0 := Nat.ne_of_gt (Nat.lt_of_lt_of_le (Nat.two_pow_pos _) hlow)
  have h₁ := (Nat.log2_lt hpos).2 hu
  have h₂ := (Nat.le_log2 hpos).2 hlow
  have hl : u.log2 - 52 = 2045 := by omega
  rw [spacing, Nat.pow_eq, hl, topSpacing_eq]

/-- From `2^1024` on no rounding leads back below it. -/
theorem magnitudeBound_le_nearest {num den : Nat} (h : magnitudeBound ≤ num / den) :
    magnitudeBound ≤ nearestMagnitude num den := by
  have hpos : num / den ≠ 0 := Nat.ne_of_gt (Nat.lt_of_lt_of_le magnitudeBound_pos h)
  have hlog : 2098 ≤ (num / den).log2 := (Nat.le_log2 hpos).2 h
  have hsplit : 2 ^ (num / den).log2 = 2 ^ 52 * spacing (num / den) := by
    rw [spacing, Nat.pow_eq, ← Nat.pow_add]
    congr 1
    omega
  have hq : 2 ^ 52 ≤ num / den / spacing (num / den) := by
    refine (Nat.le_div_iff_mul_le (Nat.two_pow_pos _)).2 ?_
    change 2 ^ 52 * spacing (num / den) ≤ num / den
    rw [← hsplit]
    exact Nat.log2_self_le hpos
  rw [Nat.div_div_eq_div_mul] at hq
  calc magnitudeBound
      ≤ 2 ^ (num / den).log2 := Nat.pow_le_pow_right (by decide) hlog
    _ = 2 ^ 52 * spacing (num / den) := hsplit
    _ ≤ nearestMagnitude num den :=
        Nat.mul_le_mul_right _ (hq.trans (le_nearestEven _ _))

/-- Half a spacing below `2^1024` rounding goes up, the last significand being odd. -/
theorem magnitudeBound_le_nearest_of_overflow {num den : Nat}
    (h : overflow * den ≤ num) (hu : num / den < magnitudeBound) (hd : 0 < den) :
    magnitudeBound ≤ nearestMagnitude num den := by
  have hq : overflow ≤ num / den := (Nat.le_div_iff_mul_le hd).2 h
  have hs := spacing_eq hq hu
  have hdiv : num / (den * (2 * halfSpacing)) = 2 ^ 53 - 1 := by
    rw [← Nat.div_div_eq_div_mul]
    rw [overflow] at hq
    rw [magnitudeBound_eq] at hu
    exact Nat.div_eq_of_lt_le (by omega) (by omega)
  have hmod := Nat.div_add_mod num (den * (2 * halfSpacing))
  rw [hdiv] at hmod
  have he : den * (2 * halfSpacing) = 2 * (halfSpacing * den) := by ring
  rw [overflow, Nat.mul_assoc] at h
  rw [he] at hmod hdiv
  have hup : ¬ (2 * (num % (2 * (halfSpacing * den))) < 2 * (halfSpacing * den) ∨
      2 * (num % (2 * (halfSpacing * den))) = 2 * (halfSpacing * den) ∧ (2 ^ 53 - 1) % 2 = 0) := by
    omega
  have hn : nearestEven num (den * (2 * halfSpacing)) = 2 ^ 53 := by
    unfold nearestEven
    dsimp only
    rw [he, hdiv, if_neg hup]
    norm_num
  unfold nearestMagnitude
  dsimp only
  rw [hs, hn, magnitudeBound_eq]
  omega

theorem two_pow_mul_unitsPerOne_lt : 2 ^ 110 * unitsPerOne < overflow := by
  unfold overflow halfSpacing
  decide +kernel

/-- Exactly the ratios below `overflow` stay finite. -/
theorem nearestMagnitude_lt_iff {num den : Nat} (hd : 0 < den) :
    nearestMagnitude num den < magnitudeBound ↔ num < overflow * den := by
  constructor
  · intro h
    by_contra hc
    rcases Nat.lt_or_ge (num / den) magnitudeBound with hu | hu
    · exact absurd (magnitudeBound_le_nearest_of_overflow (Nat.le_of_not_lt hc) hu hd) (Nat.not_le_of_lt h)
    · exact absurd (magnitudeBound_le_nearest hu) (Nat.not_le_of_lt h)
  · intro h
    by_contra hc
    have hle : overflow ≤ magnitudeBound := by
      rw [overflow, magnitudeBound_eq]
      exact Nat.mul_le_mul_right _ (by decide)
    have hu : num / den < magnitudeBound :=
      (Nat.div_lt_iff_lt_mul hd).2 (h.trans_le (Nat.mul_le_mul_right _ hle))
    have hs := Nat.mul_le_mul_left den (spacing_le hu)
    have hr := nearestEven_mul_le num (den * spacing (num / den))
    have hm : magnitudeBound * den ≤ nearestEven num (den * spacing (num / den)) *
        (den * spacing (num / den)) := by
      have := Nat.mul_le_mul_right den (Nat.le_of_not_lt hc)
      unfold nearestMagnitude at this
      dsimp only at this
      rwa [Nat.mul_assoc, Nat.mul_comm (spacing _)] at this
    rw [overflow, Nat.mul_assoc] at h
    rw [magnitudeBound_eq, Nat.mul_assoc] at hm
    have he : den * (2 * halfSpacing) = 2 * (halfSpacing * den) := by ring
    rw [he] at hs
    omega

/-- A finite magnitude is a whole spacing away from `2^1024`. -/
theorem Representable.le {u : Nat} (h : Representable u) : u + halfSpacing ≤ overflow := by
  obtain ⟨hlt, hdvd⟩ := h
  by_contra hc
  have hover : overflow = (2 ^ 54 - 1) * halfSpacing := rfl
  have hpos := halfSpacing_pos
  rcases Nat.lt_or_ge u (2 ^ 53 * halfSpacing) with hu | hu
  · omega
  have hs : u.log2 - 52 = 2045 := by
    rw [← topBinade_eq] at hu
    have hu0 : u ≠ 0 := Nat.ne_of_gt (Nat.lt_of_lt_of_le (Nat.two_pow_pos _) hu)
    have h₁ := (Nat.log2_lt hu0).2 hlt
    have h₂ := (Nat.le_log2 hu0).2 hu
    omega
  have hdvd' : 2 * halfSpacing ∣ u := by
    rw [← topSpacing_eq, ← hs]
    exact hdvd
  rw [magnitudeBound_eq] at hlt
  obtain ⟨k, rfl⟩ := hdvd'
  have hk : k < 2 ^ 53 := by
    by_contra hk
    have := Nat.mul_le_mul_left (2 * halfSpacing) (Nat.le_of_not_lt hk)
    omega
  have hk' := Nat.mul_le_mul_left (2 * halfSpacing) (Nat.le_sub_one_of_lt hk)
  omega

namespace Binary64

theorem exists_finite {x : Binary64} (h : x.isFinite) :
    ∃ negative u, ∃ hu : Representable u, x = finite negative u hu := by
  cases x with
  | nan => cases h
  | infinity _ => cases h
  | finite negative u hu => exact ⟨negative, u, hu, rfl⟩

theorem isFinite_ofUnits {negative : Bool} {num den : Nat} (hd : 0 < den) :
    (ofUnits negative num den).isFinite = true ↔ num < overflow * den := by
  rw [← nearestMagnitude_lt_iff hd]
  unfold ofUnits
  split <;> simp_all [isFinite]

theorem natAbs_units_ofUnits_le (negative : Bool) (num den : Nat) :
    (ofUnits negative num den).units.natAbs ≤ 2 * (num / den) + 1 := by
  have h := nearestMagnitude_le num den
  unfold ofUnits
  split
  · cases negative <;> simpa [units] using h
  · simp [units]

theorem isFinite_ofFraction {negative : Bool} {num den : Nat} (hd : 0 < den) :
    (ofFraction negative num den).isFinite = true ↔ num * unitsPerOne < overflow * den := by
  rw [ofFraction, isFinite_ofUnits hd]

theorem natAbs_units_ofFraction_le (negative : Bool) (num den : Nat) :
    (ofFraction negative num den).units.natAbs ≤ 2 * (num * unitsPerOne / den) + 1 := by
  rw [ofFraction]
  exact natAbs_units_ofUnits_le _ _ _

theorem natAbs_units_le {x : Binary64} (h : x.isFinite) :
    x.units.natAbs + halfSpacing ≤ overflow := by
  obtain ⟨negative, u, hu, rfl⟩ := exists_finite h
  cases negative <;> simpa [units] using hu.le

theorem mul_finite {a b : Bool} {u v : Nat} {hu : Representable u} {hv : Representable v} :
    finite a u hu * finite b v hv = ofUnits (a != b) (u * v) unitsPerOne := by
  change mul _ _ = _
  simp only [mul]

theorem isFinite_mul {x y : Binary64} (hx : x.isFinite) (hy : y.isFinite) :
    (x * y).isFinite = true ↔
      x.units.natAbs * y.units.natAbs < overflow * unitsPerOne := by
  obtain ⟨a, u, hu, rfl⟩ := exists_finite hx
  obtain ⟨b, v, hv, rfl⟩ := exists_finite hy
  rw [mul_finite, isFinite_ofUnits unitsPerOne_pos]
  cases a <;> cases b <;> simp [units]

theorem isFinite_add {x y : Binary64} (hx : x.isFinite) (hy : y.isFinite) :
    (x + y).isFinite = true ↔ (x.units + y.units).natAbs < overflow := by
  obtain ⟨a, u, hu, rfl⟩ := exists_finite hx
  obtain ⟨b, v, hv, rfl⟩ := exists_finite hy
  change (ofSignedUnits (a && b) ((finite a u hu).units + (finite b v hv).units)).isFinite =
    true ↔ _
  unfold ofSignedUnits
  split
  · rename_i h
    have hpos : 0 < overflow := by
      have := Representable.le representable_zero
      have := halfSpacing_pos
      omega
    simpa [h, zero, isFinite] using hpos
  · rw [isFinite_ofUnits Nat.one_pos, Nat.mul_one]

theorem isFinite_of_mul {x y : Binary64} (h : (x * y).isFinite) : x.isFinite := by
  change (mul x y).isFinite = true at h
  cases x with
  | nan => simp [mul, isFinite] at h
  | infinity a =>
    cases y with
    | nan => simp [mul, isFinite] at h
    | infinity b => simp [mul, isFinite] at h
    | finite b v hv =>
      simp only [mul] at h
      split at h <;> simp [isFinite] at h
  | finite _ _ _ => rfl

theorem inRange_eq_ok {x : Binary64} (h : x.isFinite) : x.inRange = .ok x := by
  obtain ⟨_, _, _, rfl⟩ := exists_finite h
  rfl

/-- Integers below the bound become finite numbers. -/
theorem ofInt_eq_ok {n : Int} (h : n.natAbs * unitsPerOne < overflow) :
    ∃ x, ofInt n = .ok x ∧ x.isFinite ∧ x.units.natAbs ≤ 2 * (n.natAbs * unitsPerOne) + 1 := by
  have hf : (ofFraction (n < 0) n.natAbs 1).isFinite := by
    rwa [isFinite_ofFraction Nat.one_pos, Nat.mul_one]
  have hu := natAbs_units_ofFraction_le (n < 0) n.natAbs 1
  rw [Nat.div_one] at hu
  exact ⟨_, inRange_eq_ok hf, hf, hu⟩

theorem ofQuotient_eq_ok {m n : Int} (hn : n ≠ 0)
    (h : m.natAbs * unitsPerOne < overflow * n.natAbs) :
    ∃ x, ofQuotient m n = .ok x ∧ x.isFinite ∧
      x.units.natAbs ≤ 2 * (m.natAbs * unitsPerOne / n.natAbs) + 1 := by
  have hf : (ofFraction ((m < 0) != (n < 0)) m.natAbs n.natAbs).isFinite := by
    rwa [isFinite_ofFraction (Int.natAbs_pos.2 hn)]
  have hu := natAbs_units_ofFraction_le ((m < 0) != (n < 0)) m.natAbs n.natAbs
  refine ⟨_, ?_, hf, hu⟩
  rw [ofQuotient, if_neg hn, inRange_eq_ok hf]

theorem floor_eq_ok {x : Binary64} (h : x.isFinite) : x.floor = .ok (x.units / unitsPerOne) := by
  obtain ⟨_, _, _, rfl⟩ := exists_finite h
  simp only [floor]

theorem ceil_eq_ok {x : Binary64} (h : x.isFinite) : x.ceil = .ok (-(-x.units / unitsPerOne)) := by
  obtain ⟨_, _, _, rfl⟩ := exists_finite h
  simp only [ceil]

theorem half_lt : (0.5 : Binary64).isFinite ∧ (0.5 : Binary64).units.natAbs < halfSpacing := by
  unfold halfSpacing
  decide +kernel

/-- Rounding to an integer fails for what is not finite only. -/
theorem roundHalfUp_eq_ok {x : Binary64} (h : x.isFinite) : ∃ k, x.roundHalfUp = .ok k := by
  have hx := natAbs_units_le h
  have hhalf := half_lt.2
  exact ⟨_, floor_eq_ok ((isFinite_add h half_lt.1).2 (by omega))⟩

/-- The integer part of a finite number is again in range, also one further on. -/
theorem natAbs_floor_add_one_lt {x : Binary64} (h : x.isFinite) :
    (x.units / unitsPerOne).natAbs * unitsPerOne < overflow ∧
      (x.units / unitsPerOne + 1).natAbs * unitsPerOne < overflow := by
  have hx := natAbs_units_le h
  have hu : 2 * unitsPerOne < halfSpacing := by
    unfold unitsPerOne halfSpacing
    rw [Nat.pow_eq, ← Nat.pow_succ']
    exact Nat.pow_lt_pow_right (by decide) (by decide)
  have hpos := unitsPerOne_pos
  have hdiv := Int.mul_ediv_add_emod x.units unitsPerOne
  have hmod := Int.emod_nonneg x.units (b := unitsPerOne) (by omega)
  have hlt := Int.emod_lt_of_pos x.units (b := unitsPerOne) (by omega)
  have h₁ : (x.units / unitsPerOne).natAbs * unitsPerOne =
      (unitsPerOne * (x.units / unitsPerOne)).natAbs := by
    rw [Int.natAbs_mul, Nat.mul_comm, Int.natAbs_natCast]
  have h₂ : (x.units / unitsPerOne + 1).natAbs * unitsPerOne =
      (unitsPerOne * (x.units / unitsPerOne) + unitsPerOne).natAbs := by
    rw [← mul_add_one, Int.natAbs_mul, Nat.mul_comm, Int.natAbs_natCast]
  omega

end Binary64

end PatternLoom
