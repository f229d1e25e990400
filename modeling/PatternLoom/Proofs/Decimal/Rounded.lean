import Mathlib
import PatternLoom.Decimal.Fixed
import PatternLoom.Proofs.Binary64.Nearest
import PatternLoom.Proofs.Binary64.Value

/-! Rounding to decimal places keeps the order of numbers, so a bound that has no more places
than are kept also bounds what is rounded. -/

namespace PatternLoom
namespace Decimal

/-- The magnitude that is nearest to a magnitude with that many places. -/
def roundedMagnitude (places u : Nat) : Nat :=
  nearestMagnitude (scaled places u * unitsPerOne) (Nat.pow 10 places)

theorem scaled_mono (places : Nat) {u v : Nat} (h : u ≤ v) : scaled places u ≤ scaled places v :=
  nearestEven_mono unitsPerOne_pos unitsPerOne_pos
    (Nat.mul_le_mul_right _ (Nat.mul_le_mul_right _ h))

theorem roundedMagnitude_mono (places : Nat) {u v : Nat} (h : u ≤ v) :
    roundedMagnitude places u ≤ roundedMagnitude places v := by
  have hpow : 0 < Nat.pow 10 places := Nat.pow_pos (by decide)
  have hscaled := scaled_mono places h
  exact nearestMagnitude_mono hpow hpow (Nat.mul_le_mul_right _ (Nat.mul_le_mul_right _ hscaled))

theorem isFinite_roundTo (places : Nat) {x : Binary64} (h : x.isFinite) :
    (roundTo places x).isFinite := by
  obtain ⟨negative, u, hu, rfl⟩ := Binary64.exists_finite h
  have hnan : (roundTo places (.finite negative u hu)).isNan = false :=
    Binary64.isNan_ofFraction _ _ _
  rw [← Binary64.isInfinite_eq_false hnan, Binary64.isInfinite_roundTo]
  rfl

theorem isFinite_of_roundTo (places : Nat) {x : Binary64} (h : (roundTo places x).isFinite) :
    x.isFinite := by
  cases x with
  | nan => cases h
  | infinity _ => cases h
  | finite _ _ _ => rfl

theorem representable_roundedMagnitude (places : Nat) {u : Nat} (hu : Representable u) :
    Representable (roundedMagnitude places u) := by
  refine (precise_nearestMagnitude _ _).representable ?_
  have hfin := isFinite_roundTo places (x := .finite false u hu) rfl
  by_contra hc
  rw [roundTo, Binary64.ofFraction, Binary64.ofUnits] at hfin
  rw [dif_neg (by exact hc)] at hfin
  cases hfin

theorem roundTo_finite (places : Nat) (negative : Bool) {u : Nat} (hu : Representable u) :
    roundTo places (.finite negative u hu) = .finite negative (roundedMagnitude places u)
      (representable_roundedMagnitude places hu) := by
  rw [roundTo, Binary64.ofFraction]
  exact Binary64.ofUnits_eq_finite (representable_roundedMagnitude places hu) rfl

theorem units_roundTo_mono (places : Nat) {x y : Binary64} (hx : x.isFinite) (hy : y.isFinite)
    (h : x.units ≤ y.units) : (roundTo places x).units ≤ (roundTo places y).units := by
  obtain ⟨a, u, hu, rfl⟩ := Binary64.exists_finite hx
  obtain ⟨b, v, hv, rfl⟩ := Binary64.exists_finite hy
  rw [roundTo_finite, roundTo_finite]
  cases a <;> cases b <;> simp only [Binary64.units] at h ⊢
  · exact Int.ofNat_le.mpr (roundedMagnitude_mono places (by omega))
  · obtain ⟨rfl, rfl⟩ : u = 0 ∧ v = 0 := by omega
    have hzero : roundedMagnitude places 0 = 0 := by
      rw [roundedMagnitude, scaled, Nat.zero_mul, nearestEven_zero, Nat.zero_mul,
        nearestMagnitude_zero]
    rw [hzero]
    rfl
  · omega
  · have hmono := roundedMagnitude_mono places (u := v) (v := u) (by omega)
    omega

theorem abs_scaled_sub_le (places : Nat) {u : Nat} (hu : Representable u) :
    |(scaled places u : ℚ) - (Binary64.finite false u hu).value * 10 ^ places| ≤ 1 / 2 := by
  have hle := abs_nearestEven_sub_le (u * Nat.pow 10 places) unitsPerOne_pos
  rw [Nat.pow_eq] at hle
  rw [Binary64.value_finite, div_mul_eq_mul_div, scaled, Nat.pow_eq]
  exact_mod_cast hle

theorem isRounding_scaled (places : Nat) {u : Nat} (hu : Representable u) :
    Binary64.IsRounding (roundTo places (.finite false u hu)) (scaled places u / 10 ^ places) := by
  have hpow : 0 < Nat.pow 10 places := Nat.pow_pos (by decide)
  refine ⟨scaled places u * unitsPerOne, Nat.pow 10 places, hpow, ?_, rfl⟩
  rw [Nat.pow_eq]
  push_cast
  ring

/-- Rounding to decimal places finds the nearest count of the last place, and rounds that. -/
theorem isRounding_roundTo (places : Nat) {x : Binary64} (hx : x.Unsigned) (hxf : x.isFinite) :
    ∃ s : Nat, Binary64.IsRounding (roundTo places x) (s / 10 ^ places) ∧
      |(s : ℚ) - x.value * 10 ^ places| ≤ 1 / 2 := by
  obtain ⟨u, hu, rfl⟩ := hx.exists_magnitude hxf
  exact ⟨scaled places u, isRounding_scaled places hu, abs_scaled_sub_le places hu⟩

theorem scaled_le_iff {places u m : Nat} (hu : Representable u) (hm : m % 2 = 0) :
    scaled places u ≤ m ↔ (Binary64.finite false u hu).value * 10 ^ places ≤ m + 1 / 2 := by
  have hone := Binary64.cast_unitsPerOne_pos
  rw [scaled, nearestEven_le_iff unitsPerOne_pos hm, Nat.pow_eq, Binary64.value_finite,
    div_mul_eq_mul_div, div_le_iff₀ hone]
  constructor
  · intro h
    have hcast : 2 * ((u : ℚ) * 10 ^ places) ≤ (2 * m + 1) * unitsPerOne := by exact_mod_cast h
    linarith
  · intro h
    have hcast : 2 * ((u : ℚ) * 10 ^ places) ≤ (2 * m + 1) * unitsPerOne := by linarith
    exact_mod_cast hcast

/-- Rounding to decimal places takes away at most half a unit of the last one, and is rounded. -/
theorem exists_isRounding_roundTo (places : Nat) {x : Binary64} (hx : x.Unsigned)
    (hxf : x.isFinite) :
    ∃ v, Binary64.IsRounding (roundTo places x) v ∧ x.value - 1 / (2 * 10 ^ places) ≤ v := by
  obtain ⟨s, hround, herr⟩ := isRounding_roundTo places hx hxf
  obtain ⟨hlow, -⟩ := abs_le.mp herr
  have hten : (0 : ℚ) < 10 ^ places := by positivity
  refine ⟨_, hround, ?_⟩
  rw [one_div, mul_inv, ← div_eq_mul_inv, le_div_iff₀ hten, sub_mul, div_mul_cancel₀ _ hten.ne']
  linarith

theorem pos_roundTo (places : Nat) {x : Binary64} (hx : x.isFinite) (h : 1 ≤ x) :
    (roundTo places x).isFinite ∧ ¬ roundTo places x ≤ 0 := by
  obtain ⟨hunsigned, hone⟩ := Binary64.one_le_value hx h
  have hfinite := isFinite_roundTo places hx
  obtain ⟨v, hround, hle⟩ := exists_isRounding_roundTo places hunsigned hx
  have hpow : (1 : ℚ) ≤ 10 ^ places := one_le_pow₀ (by norm_num)
  have hhalf : (1 : ℚ) / (2 * 10 ^ places) ≤ 1 / 2 :=
    one_div_le_one_div_of_le two_pos (by linarith)
  have hlow := hround.mul_le_value hfinite (by linarith)
  refine ⟨hfinite, (Binary64.pos_iff hfinite).mp ?_⟩
  rw [Binary64.lt_iff_value Binary64.isFinite_zero hfinite, Binary64.value_zero]
  linarith

theorem roundedMagnitude_eq_zero_iff {places u : Nat} (hp : places ≤ 10) :
    roundedMagnitude places u = 0 ↔ 2 * (u * 10 ^ places) ≤ unitsPerOne := by
  have hscaled := @nearestEven_le_iff (u * Nat.pow 10 places) unitsPerOne 0 unitsPerOne_pos rfl
  rw [← scaled, Nat.le_zero, Nat.mul_zero, Nat.zero_add, Nat.one_mul, Nat.pow_eq] at hscaled
  rw [roundedMagnitude, ← hscaled]
  constructor
  · intro h
    by_contra hne
    refine Binary64.nearestMagnitude_ne_zero ?_ h
    have hten : Nat.pow 10 places ≤ 10 ^ 10 := Nat.pow_le_pow_right (by decide) hp
    have hone : 10 ^ 10 ≤ unitsPerOne := by decide +kernel
    have hle : Nat.pow 10 places ≤ scaled places u * unitsPerOne :=
      hten.trans (hone.trans (Nat.le_mul_of_pos_left _ (Nat.pos_of_ne_zero hne)))
    exact (Nat.div_pos hle (Nat.pow_pos (by decide))).ne'
  · intro h
    rw [h, Nat.zero_mul, nearestMagnitude_zero]

/-- What is left of a number is above zero just if the number is more than half of the last place. -/
theorem zero_lt_roundTo_iff {places : Nat} (hp : places ≤ 10) {x : Binary64} (hx : x.isFinite) :
    0 < roundTo places x ↔ 1 / (2 * 10 ^ places) < x.value := by
  have hten : (0 : ℚ) < 10 ^ places := by positivity
  have hone := Binary64.cast_unitsPerOne_pos
  have hrounded := isFinite_roundTo places hx
  rw [Binary64.lt_iff_value Binary64.isFinite_zero hrounded, Binary64.value_zero]
  obtain ⟨negative, u, hu, rfl⟩ := Binary64.exists_finite hx
  rw [roundTo_finite]
  cases negative with
  | false =>
    rw [Binary64.value_finite, Binary64.value_finite, div_pos_iff_of_pos_right hone, Nat.cast_pos,
      Nat.pos_iff_ne_zero, ne_eq, roundedMagnitude_eq_zero_iff hp, not_le,
      div_lt_div_iff₀ (by positivity) hone]
    constructor
    · intro h
      have hcast : (unitsPerOne : ℚ) < 2 * (u * 10 ^ places) := by exact_mod_cast h
      linarith
    · intro h
      have hcast : (unitsPerOne : ℚ) < 2 * (u * 10 ^ places) := by linarith
      exact_mod_cast hcast
  | true =>
    have hle : ∀ {v : Nat} (hv : Representable v), (Binary64.finite true v hv).value ≤ 0 := by
      intro v hv
      have hcount : (0 : ℚ) ≤ ((v : Int) : ℚ) := by exact_mod_cast Nat.zero_le v
      rw [Binary64.value, Binary64.units, Int.cast_neg, neg_div, neg_nonpos]
      exact div_nonneg hcount hone.le
    have hhalf : (0 : ℚ) < 1 / (2 * 10 ^ places) := by positivity
    exact iff_of_false (hle _).not_gt (((hle hu).trans_lt hhalf).not_gt)

end Decimal
end PatternLoom
