import Mathlib
import PatternLoom.Proofs.Binary64.Order

/-! What is left of a share of a sum when the summands are taken away from it in order. A difference
has the sign of the exact one, and each sum or difference is off by one part in `2^53`. So nothing
is left of a share that is a little less than the sum, as long as the summands are not too many. -/

namespace PatternLoom

section Magnitudes

theorem nearestMagnitude_of_le {n : Nat} (h : n ≤ 2 ^ 53) : nearestMagnitude n 1 = n :=
  nearestMagnitude_self (by simpa using precise_mul_two_pow h 0)

theorem nearestMagnitude_pos {n : Nat} (h : 0 < n) : 0 < nearestMagnitude n 1 :=
  Nat.pos_of_ne_zero (Binary64.nearestMagnitude_ne_zero (by rw [Nat.div_one]; exact h.ne'))

/-- A count of units is rounded by one part in `2^53`, also where it is small. -/
theorem nearestMagnitude_one_error (n : Nat) :
    2 ^ 53 * nearestMagnitude n 1 ≤ 2 ^ 53 * n + n ∧
      2 ^ 53 * n ≤ 2 ^ 53 * nearestMagnitude n 1 + n := by
  rcases Nat.le_total n (2 ^ 53) with hle | hge
  · rw [nearestMagnitude_of_le hle]
    omega
  · obtain ⟨hhigh, hlow⟩ := @nearestMagnitude_error n 1 Nat.one_pos
    rw [Nat.div_one] at hhigh hlow
    have hspacing := two_pow_mul_spacing_le (u := n) (by omega)
    omega

/-- A rounded quotient is off upwards by one part in `2^53`, or by half a unit. -/
theorem nearestMagnitude_le_add (num : Nat) {den : Nat} (hd : 0 < den) :
    (nearestMagnitude num den : ℚ) ≤ num / den + num / den / 2 ^ 53 + 1 / 2 := by
  have hquot : (0 : ℚ) ≤ num / den / 2 ^ 53 := by positivity
  rcases Nat.lt_or_ge num (2 ^ 53 * den) with hsmall | hlarge
  · have hhalf := (abs_le.mp (abs_nearestMagnitude_sub_le_half hd hsmall)).2
    linarith
  · have hlarge' : 2 ^ 52 * den ≤ num := by omega
    have hrel := (abs_le.mp (abs_nearestMagnitude_sub_le hd hlarge')).2
    linarith

end Magnitudes

namespace Binary64

/-- A finite number that is not below zero. -/
def IsWeight (x : Binary64) : Prop := x.isFinite ∧ ¬ x < 0

instance : DecidablePred IsWeight := fun _ => inferInstanceAs (Decidable (_ ∧ _))

variable {x w : Binary64} {ws : List Binary64}

section Signs

theorem zero_eq_finite : (0 : Binary64) = finite false 0 representable_zero := by decide +kernel

theorem zero_units : (0 : Binary64).units = 0 := by
  rw [zero_eq_finite]
  rfl

theorem units_neg (x : Binary64) : x.neg.units = -x.units := by
  cases x with
  | nan => rfl
  | infinity _ => rfl
  | finite b u hu => cases b <;> simp [neg, units]

theorem IsWeight.exists_units (h : w.IsWeight) : ∃ u : Nat, w.units = u := by
  obtain ⟨hfinite, hnonneg⟩ := h
  rw [lt_iff_units hfinite isFinite_zero, zero_units, not_lt] at hnonneg
  exact ⟨w.units.toNat, (Int.toNat_of_nonneg hnonneg).symm⟩

theorem infinity_le_iff (b : Bool) (hx : x.isFinite) : infinity b ≤ x ↔ b = true := by
  obtain ⟨_, _, _, rfl⟩ := exists_finite hx
  change (b || false) = true ↔ _
  rw [Bool.or_false]

theorem ofSignedUnits_nonpos_iff (b : Bool) (n : Int) : ofSignedUnits b n ≤ 0 ↔ n ≤ 0 := by
  unfold ofSignedUnits
  split
  · rename_i hzero
    rw [le_iff_units rfl isFinite_zero, units_zero, zero_units, hzero]
  · rename_i hne
    have hpos := nearestMagnitude_pos (Int.natAbs_pos.mpr hne)
    unfold ofUnits
    rcases lt_or_gt_of_ne hne with hneg | hgt
    · rw [decide_eq_true hneg]
      refine iff_of_true ?_ hneg.le
      split
      · rw [le_iff_units rfl isFinite_zero, zero_units]
        simp only [units]
        omega
      · exact (infinity_le_iff true isFinite_zero).mpr rfl
    · rw [decide_eq_false hgt.not_gt]
      refine iff_of_false ?_ (by omega)
      split
      · rw [le_iff_units rfl isFinite_zero, zero_units]
        simp only [units]
        omega
      · rw [infinity_le_iff false isFinite_zero]
        exact Bool.false_ne_true

/-- A difference is rounded, but not to the other side of zero. -/
theorem sub_nonpos_iff (hx : x.isFinite) (hw : w.isFinite) : x - w ≤ 0 ↔ x ≤ w := by
  rw [le_iff_units hx hw]
  have hneg := units_neg w
  obtain ⟨a, u, hu, rfl⟩ := exists_finite hx
  obtain ⟨b, v, hv, rfl⟩ := exists_finite hw
  change ofSignedUnits _ ((finite a u hu).units + (finite b v hv).neg.units) ≤ 0 ↔ _
  rw [ofSignedUnits_nonpos_iff, hneg]
  omega

theorem sub_nonpos (hx : x ≤ 0) (hw : w.IsWeight) : x - w ≤ 0 := by
  obtain ⟨hfinite, hnonneg⟩ := hw
  cases x with
  | nan => cases hx
  | infinity b =>
    obtain ⟨_, _, _, rfl⟩ := exists_finite hfinite
    exact hx
  | finite a u hu =>
    rw [sub_nonpos_iff rfl hfinite]
    rw [le_iff_units rfl isFinite_zero] at hx
    rw [lt_iff_units hfinite isFinite_zero, not_lt] at hnonneg
    exact (le_iff_units rfl hfinite).mpr (hx.trans hnonneg)

/-- Taking away zero does not bring a number to zero. -/
theorem nonpos_of_sub_nonpos (hw : w.IsWeight) (hzero : ¬ 0 < w) (h : x - w ≤ 0) : x ≤ 0 := by
  obtain ⟨hfinite, _⟩ := hw
  rw [lt_iff_units isFinite_zero hfinite, zero_units, not_lt] at hzero
  cases x with
  | nan => cases h
  | infinity b =>
    obtain ⟨_, _, _, rfl⟩ := exists_finite hfinite
    exact h
  | finite a u hu =>
    rw [sub_nonpos_iff rfl hfinite, le_iff_units rfl hfinite] at h
    rw [le_iff_units rfl isFinite_zero, zero_units]
    exact h.trans hzero

end Signs

section Sums

theorem add_of_units {a u : Nat} (ha : Representable a) (hw : w.isFinite) (hu : w.units = u) :
    finite false a ha + w = ofUnits false (a + u) 1 := by
  obtain ⟨b, v, hv, rfl⟩ := exists_finite hw
  change ofSignedUnits (false && b) ((a : Int) + (finite b v hv).units) = _
  rw [hu, Bool.false_and, ← Nat.cast_add, ofSignedUnits_false]

theorem sub_of_units {a u : Nat} (ha : Representable a) (hw : w.isFinite) (hu : w.units = u)
    (hle : u ≤ a) : finite false a ha - w = ofUnits false (a - u) 1 := by
  have hneg := units_neg w
  obtain ⟨b, v, hv, rfl⟩ := exists_finite hw
  change ofSignedUnits (false && !b) ((a : Int) + (finite b v hv).neg.units) = _
  rw [hneg, hu, Bool.false_and, ← sub_eq_add_neg, ← Nat.cast_sub hle, ofSignedUnits_false]

theorem foldl_add_infinity (b : Bool) (hws : ∀ w ∈ ws, w.isFinite) :
    ws.foldl add (infinity b) = infinity b := by
  induction ws with
  | nil => rfl
  | cons w ws ih =>
    obtain ⟨hw, hws⟩ := List.forall_mem_cons.mp hws
    have hadd : add (infinity b) w = infinity b := infinity_add b hw
    rw [List.foldl_cons, hadd, ih hws]

/-- A sum that stays finite is more than the exact one by one part in `2^52` for each summand. -/
theorem foldl_add_units {a : Nat} (ha : Representable a) (hws : ∀ w ∈ ws, w.IsWeight)
    (hfinite : (ws.foldl add (finite false a ha)).isFinite) :
    ∃ t ht, ws.foldl add (finite false a ha) = finite false t ht ∧ a ≤ t ∧
      2 ^ 52 * (t : Int) ≤ 2 ^ 52 * (a + (ws.map units).sum) + ws.length * t := by
  induction ws generalizing a with
  | nil => exact ⟨a, ha, rfl, le_rfl, by simp⟩
  | cons w ws ih =>
    obtain ⟨hw, hws⟩ := List.forall_mem_cons.mp hws
    obtain ⟨u, hu⟩ := hw.exists_units
    have hadd : add (finite false a ha) w = ofUnits false (a + u) 1 := add_of_units ha hw.1 hu
    rw [List.foldl_cons, hadd] at hfinite ⊢
    have hbound : nearestMagnitude (a + u) 1 < magnitudeBound := by
      by_contra hlarge
      rw [ofUnits, dif_neg hlarge, foldl_add_infinity false fun w hw => (hws w hw).1] at hfinite
      cases hfinite
    rw [ofUnits, dif_pos hbound] at hfinite ⊢
    obtain ⟨t, ht, hsum, hle, herror⟩ := ih _ hws hfinite
    have hgrows : a ≤ nearestMagnitude (a + u) 1 := ha.precise.le_nearest Nat.one_pos (by omega)
    obtain ⟨hhigh, hlow⟩ := nearestMagnitude_one_error (a + u)
    refine ⟨t, ht, hsum, hgrows.trans hle, ?_⟩
    rw [List.map_cons, List.sum_cons, hu, List.length_cons]
    push_cast
    rw [add_mul, one_mul]
    omega

end Sums

section Remainders

/-- What is left of a number when others are taken from it in order. -/
def remainder (x : Binary64) (ws : List Binary64) : Binary64 := ws.foldl (· - ·) x

theorem remainder_nil (x : Binary64) : x.remainder [] = x := rfl

theorem remainder_cons (x w : Binary64) (ws : List Binary64) :
    x.remainder (w :: ws) = (x - w).remainder ws := rfl

theorem remainder_append (x : Binary64) (ws ws' : List Binary64) :
    x.remainder (ws ++ ws') = (x.remainder ws).remainder ws' := List.foldl_append

theorem remainder_nonpos (hx : x ≤ 0) (hws : ∀ w ∈ ws, w.IsWeight) : x.remainder ws ≤ 0 := by
  induction ws generalizing x with
  | nil => exact hx
  | cons w ws ih =>
    obtain ⟨hw, hws⟩ := List.forall_mem_cons.mp hws
    exact ih (sub_nonpos hx hw) hws

/-- A remainder above zero is more than the exact one by one part in `2^53` for each difference. -/
theorem remainder_units {r bound : Nat} (hr : Representable r) (hbound : r ≤ bound)
    (hws : ∀ w ∈ ws, w.IsWeight) (h : ¬ (finite false r hr).remainder ws ≤ 0) :
    2 ^ 53 * (ws.map units).sum + 2 ^ 53 ≤ 2 ^ 53 * (r : Int) + ws.length * bound := by
  induction ws generalizing r with
  | nil =>
    rw [remainder_nil, le_iff_units rfl isFinite_zero, zero_units] at h
    simp only [units] at h
    simp only [List.map_nil, List.sum_nil, List.length_nil, Nat.cast_zero]
    omega
  | cons w ws ih =>
    obtain ⟨hw, hws⟩ := List.forall_mem_cons.mp hws
    obtain ⟨u, hu⟩ := hw.exists_units
    rw [remainder_cons] at h
    have hlt : u < r := by
      by_contra hge
      refine h (remainder_nonpos ?_ hws)
      rw [sub_nonpos_iff rfl hw.1, le_iff_units rfl hw.1, hu]
      simp only [units]
      omega
    have hless : nearestMagnitude (r - u) 1 ≤ r := hr.precise.nearest_le Nat.one_pos (by omega)
    have hround := @ofUnits_eq_finite false _ _ _
      (representable_nearestMagnitude (hless.trans_lt hr.1)) rfl
    rw [sub_of_units hr hw.1 hu hlt.le, hround] at h
    have herror := ih _ (hless.trans hbound) hws h
    obtain ⟨hhigh, _⟩ := nearestMagnitude_one_error (r - u)
    rw [List.map_cons, List.sum_cons, hu, List.length_cons]
    push_cast
    rw [add_mul, one_mul]
    omega

/-- Nothing is left of a share that lacks one part in `2^32` of the sum. -/
theorem remainder_share {share : Binary64} (hshare : share.Unsigned ∧ share.isFinite)
    (hlacks : share.value ≤ 1 - 1 / 2 ^ 32) (hws : ∀ w ∈ ws, w.IsWeight)
    (hcount : ws.length ≤ 2 ^ 19) (hfinite : (sum ws).isFinite) :
    (share * sum ws).remainder ws ≤ 0 := by
  by_contra h
  obtain ⟨k, hk, rfl⟩ := hshare.1.exists_magnitude hshare.2
  obtain ⟨t, ht, hsum, _, hmore⟩ :=
    foldl_add_units representable_zero hws (by rwa [← zero_eq_finite])
  rw [← zero_eq_finite, ← sum] at hsum
  rw [Nat.cast_zero, zero_add] at hmore
  rw [hsum] at h
  have hpos := cast_unitsPerOne_pos
  have htq : (0 : ℚ) ≤ t := Nat.cast_nonneg t
  rw [value_finite] at hlacks
  have hexact : ((k * t : Nat) : ℚ) / unitsPerOne ≤ (1 - 1 / 2 ^ 32) * t := by
    rw [Nat.cast_mul, mul_div_right_comm]
    exact mul_le_mul_of_nonneg_right hlacks htq
  have hle : nearestMagnitude (k * t) unitsPerOne ≤ t := by
    refine ht.precise.nearest_le unitsPerOne_pos ?_
    have hq : ((k * t : Nat) : ℚ) ≤ t * unitsPerOne := by
      rw [← div_le_iff₀ hpos]
      linarith
    exact_mod_cast hq
  have hproduct : finite false k hk * finite false t ht =
      finite false (nearestMagnitude (k * t) unitsPerOne)
        (representable_nearestMagnitude (hle.trans_lt ht.1)) :=
    mul_finite.trans (ofUnits_eq_finite _ rfl)
  rw [hproduct] at h
  have hless := remainder_units _ hle hws h
  have hround := nearestMagnitude_le_add (k * t) unitsPerOne_pos
  -- The sum is off by less than what the share lacks of it.
  have herrors : (ws.length : Int) * t ≤ 2 ^ 19 * t :=
    mul_le_mul_of_nonneg_right (by exact_mod_cast hcount) (Int.natCast_nonneg t)
  have htotal : 2 ^ 53 * ((t : Int) + 1) ≤
      2 ^ 53 * (nearestMagnitude (k * t) unitsPerOne : Int) + 3 * (2 ^ 19 * t) := by
    linarith
  have htotal' : 2 ^ 53 * ((t : ℚ) + 1) ≤
      2 ^ 53 * (nearestMagnitude (k * t) unitsPerOne : ℚ) + 3 * (2 ^ 19 * t) := by
    exact_mod_cast htotal
  linarith

end Remainders

end Binary64
end PatternLoom
