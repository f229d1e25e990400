import PatternLoom.Proofs.Binary64.Value

/-! Numbers in their order, the infinities included: all but `nan` have a place in a linear order,
and comparing them is comparing places. A sum with a number above zero is not below the other
summand, however it is rounded. -/

namespace PatternLoom
namespace Binary64

variable {x y z : Binary64}

section Places

/-- Where a number stands among all numbers, of which the infinities are the first and the last. -/
def place : Binary64 → WithBot (WithTop ℚ)
  | infinity true => ⊥
  | infinity false => ⊤
  | x => ((x.value : WithTop ℚ) : WithBot (WithTop ℚ))

theorem place_infinity_true : (infinity true).place = ⊥ := rfl

theorem place_infinity_false : (infinity false).place = ⊤ := rfl

theorem place_finite (hx : x.isFinite) :
    x.place = ((x.value : WithTop ℚ) : WithBot (WithTop ℚ)) := by
  cases x with
  | nan => rfl
  | infinity _ => cases hx
  | finite _ _ _ => rfl

theorem bot_lt_place (hx : x.isFinite) : ⊥ < x.place := by
  rw [place_finite hx]
  exact WithBot.bot_lt_coe _

theorem place_lt_top (hx : x.isFinite) : x.place < ⊤ := by
  rw [place_finite hx]
  exact WithBot.coe_lt_coe.mpr (WithTop.coe_lt_top _)

theorem lt_iff_place (hx : x.isNan = false) (hy : y.isNan = false) :
    x < y ↔ x.place < y.place := by
  cases x with
  | nan => cases hx
  | infinity a =>
    cases a with
    | true =>
      rw [place_infinity_true, bot_lt_iff_ne_bot]
      cases y with
      | nan => cases hy
      | infinity b =>
        cases b with
        | true => exact iff_of_false nofun (not_not_intro rfl)
        | false => exact iff_of_true rfl nofun
      | finite b v hv => exact iff_of_true rfl (bot_lt_place rfl).ne'
    | false =>
      rw [place_infinity_false]
      refine iff_of_false ?_ not_top_lt
      cases y <;> nofun
  | finite a u hu =>
    cases y with
    | nan => cases hy
    | infinity b =>
      cases b with
      | true => exact iff_of_false nofun not_lt_bot
      | false => exact iff_of_true rfl (place_lt_top rfl)
    | finite b v hv =>
      rw [place_finite rfl, place_finite rfl, WithBot.coe_lt_coe, WithTop.coe_lt_coe]
      exact lt_iff_value rfl rfl

theorem equal_iff_place (hx : x.isNan = false) (hy : y.isNan = false) :
    x.equal y = true ↔ x.place = y.place := by
  cases x with
  | nan => cases hx
  | infinity a =>
    cases y with
    | nan => cases hy
    | infinity b =>
      cases a <;> cases b
      · exact iff_of_true rfl rfl
      · exact iff_of_false nofun nofun
      · exact iff_of_false nofun nofun
      · exact iff_of_true rfl rfl
    | finite b v hv =>
      refine iff_of_false nofun ?_
      cases a with
      | true => exact (bot_lt_place rfl).ne
      | false => exact (place_lt_top rfl).ne'
  | finite a u hu =>
    cases y with
    | nan => cases hy
    | infinity b =>
      refine iff_of_false nofun ?_
      cases b with
      | true => exact (bot_lt_place rfl).ne'
      | false => exact (place_lt_top rfl).ne
    | finite b v hv =>
      rw [place_finite rfl, place_finite rfl, WithBot.coe_inj, WithTop.coe_inj]
      exact equal_iff_value rfl rfl

theorem le_iff_place (hx : x.isNan = false) (hy : y.isNan = false) :
    x ≤ y ↔ x.place ≤ y.place := by
  change (x.lt y || x.equal y) = true ↔ _
  rw [Bool.or_eq_true, equal_iff_place hx hy, le_iff_lt_or_eq, ← lt_iff_place hx hy]
  rfl

/-- What stands before another by its number, or by something else where the numbers are equal. -/
theorem not_before_eq {κ : Type} [LinearOrder κ] {a b : κ} [Decidable (b < a)] (hx : x.isFinite)
    (hy : y.isFinite) : (!if y.equal x then decide (b < a) else decide (y < x)) =
      decide (toLex (x.value, a) ≤ toLex (y.value, b)) := by
  rw [Bool.eq_iff_iff, Bool.not_eq_true', decide_eq_true_iff, Prod.Lex.toLex_le_toLex]
  by_cases he : y.equal x = true
  · have hvalue := (equal_iff_value hy hx).mp he
    rw [if_pos he, decide_eq_false_iff_not, hvalue]
    simp
  · have hvalue := mt (equal_iff_value hy hx).mpr he
    rw [if_neg he, decide_eq_false_iff_not, lt_iff_value hy hx, not_lt]
    simp [Ne.symm hvalue, le_iff_lt_or_eq]

end Places

section Comparisons

theorem not_lt_nan (x : Binary64) : ¬ x < nan := by
  cases x <;> nofun

theorem isNan_of_lt (h : x < y) : x.isNan = false ∧ y.isNan = false := by
  cases x with
  | nan => cases h
  | infinity _ => cases y <;> first | exact ⟨rfl, rfl⟩ | cases h
  | finite _ _ _ => cases y <;> first | exact ⟨rfl, rfl⟩ | cases h

theorem isNan_of_le (h : x ≤ y) : x.isNan = false ∧ y.isNan = false := by
  cases x with
  | nan => cases h
  | infinity _ => cases y <;> first | exact ⟨rfl, rfl⟩ | cases h
  | finite _ _ _ => cases y <;> first | exact ⟨rfl, rfl⟩ | cases h

theorem le_of_lt (h : x < y) : x ≤ y := by
  obtain ⟨hx, hy⟩ := isNan_of_lt h
  exact (le_iff_place hx hy).mpr ((lt_iff_place hx hy).mp h).le

theorem le_of_not_lt (hx : x.isNan = false) (hy : y.isNan = false) (h : ¬ x < y) : y ≤ x := by
  rw [lt_iff_place hx hy, not_lt] at h
  exact (le_iff_place hy hx).mpr h

theorem not_lt_of_le (h : x ≤ y) : ¬ y < x := by
  obtain ⟨hx, hy⟩ := isNan_of_le h
  rw [lt_iff_place hy hx, not_lt]
  exact (le_iff_place hx hy).mp h

protected theorem le_trans (hxy : x ≤ y) (hyz : y ≤ z) : x ≤ z := by
  obtain ⟨hx, hy⟩ := isNan_of_le hxy
  obtain ⟨_, hz⟩ := isNan_of_le hyz
  rw [le_iff_place hx hy] at hxy
  rw [le_iff_place hy hz] at hyz
  exact (le_iff_place hx hz).mpr (hxy.trans hyz)

theorem not_lt_infinity (x : Binary64) : ¬ x < infinity true := by
  cases x with
  | nan => nofun
  | infinity a => cases a <;> nofun
  | finite _ _ _ => nofun

theorem lt_of_nonpos_of_pos (h : x ≤ 0) (hy : 0 < y) : x < y := by
  obtain ⟨hx, hzero⟩ := isNan_of_le h
  obtain ⟨_, hy'⟩ := isNan_of_lt hy
  rw [le_iff_place hx hzero] at h
  rw [lt_iff_place hzero hy'] at hy
  exact (lt_iff_place hx hy').mpr (h.trans_lt hy)

theorem ne_of_lt (h : x < y) : y ≠ x := by
  rintro rfl
  obtain ⟨hy, _⟩ := isNan_of_lt h
  exact lt_irrefl _ ((lt_iff_place hy hy).mp h)

/-- The larger of a finite number and one that is a number. -/
theorem larger_eq_left_iff : x.larger y = x ↔ ¬ x < y := by
  rw [larger]
  constructor
  · intro h hlt
    rw [if_pos hlt] at h
    exact ne_of_lt hlt h
  · exact fun h => if_neg h

theorem larger_spec (hx : x.isFinite) (hy : y.isNan = false) : (x.larger y).isNan = false ∧
    x.larger y ≠ infinity true ∧ x ≤ x.larger y ∧ y ≤ x.larger y := by
  have hnan := isNan_of_isFinite hx
  rw [larger]
  split
  · rename_i h
    refine ⟨hy, ?_, le_of_lt h, le_of_not_lt hy hy fun hlt => ne_of_lt hlt rfl⟩
    rintro rfl
    exact not_lt_infinity x h
  · rename_i h
    refine ⟨hnan, ?_, le_of_not_lt hnan hnan fun hlt => ne_of_lt hlt rfl, le_of_not_lt hnan hy h⟩
    rintro rfl
    cases hx

end Comparisons

section Sums

/-- A positive number can be added to every number but the least infinity. -/
theorem isNan_add_of_pos (hx : x.isNan = false) (hx' : x ≠ infinity true) (hy : 0 < y) :
    (x + y).isNan = false := by
  cases y with
  | nan => exact absurd hy (not_lt_nan 0)
  | infinity b =>
    cases b with
    | true => exact absurd hy (not_lt_infinity 0)
    | false =>
      cases x with
      | nan => cases hx
      | infinity a =>
        cases a with
        | true => exact absurd rfl hx'
        | false => rfl
      | finite _ _ _ => rfl
  | finite _ _ _ => exact isNan_add hx rfl

theorem le_iff_units (hx : x.isFinite) (hy : y.isFinite) : x ≤ y ↔ x.units ≤ y.units := by
  rw [le_iff_value hx hy, value, value, div_le_div_iff_of_pos_right cast_unitsPerOne_pos,
    Int.cast_le]

theorem le_ofUnits_false (hx : x.isFinite) {n : Nat} (h : x.units ≤ n) :
    x ≤ ofUnits false n 1 := by
  obtain ⟨a, u, hu, rfl⟩ := exists_finite hx
  rw [ofUnits]
  split
  · rw [le_iff_units rfl rfl]
    cases a with
    | true =>
      simp only [units]
      omega
    | false =>
      simp only [units] at h ⊢
      have hnear : u ≤ nearestMagnitude n 1 := hu.precise.le_nearest Nat.one_pos (by omega)
      omega
  · rfl

theorem le_ofUnits_true (hx : x.isFinite) {n : Nat} (hn : 0 < n) (h : x.units ≤ -(n : Int)) :
    x ≤ ofUnits true n 1 := by
  obtain ⟨a, u, hu, rfl⟩ := exists_finite hx
  cases a with
  | false =>
    simp only [units] at h
    omega
  | true =>
    simp only [units] at h
    have hnear : nearestMagnitude n 1 ≤ u := hu.precise.nearest_le Nat.one_pos (by omega)
    rw [ofUnits, dif_pos (hnear.trans_lt hu.1), le_iff_units rfl rfl]
    simp only [units]
    omega

/-- A sum of units is not rounded to below a number that it is not below. -/
theorem le_ofSignedUnits (hx : x.isFinite) {n : Int} (h : x.units ≤ n) (negative : Bool) :
    x ≤ ofSignedUnits negative n := by
  unfold ofSignedUnits
  split
  · rename_i hzero
    rw [le_iff_units hx rfl, units_zero, ← hzero]
    exact h
  · rename_i hne
    rcases lt_or_gt_of_ne hne with hneg | hpos
    · rw [decide_eq_true hneg]
      exact le_ofUnits_true hx (by omega) (by omega)
    · rw [decide_eq_false hpos.not_gt]
      exact le_ofUnits_false hx (by omega)

theorem le_add_of_pos (hx : x.isFinite) (hy : 0 < y) : x ≤ x + y := by
  obtain ⟨a, u, hu, rfl⟩ := exists_finite hx
  cases y with
  | nan => exact absurd hy (not_lt_nan 0)
  | infinity b =>
    cases b with
    | true => exact absurd hy (not_lt_infinity 0)
    | false => rfl
  | finite b v hv =>
    have hunits := (lt_iff_units isFinite_zero rfl).mp hy
    have hzero : (0 : Binary64).units = 0 := by decide +kernel
    rw [hzero] at hunits
    exact le_ofSignedUnits rfl (by omega) _

end Sums

end Binary64
end PatternLoom
