import PatternLoom.Proofs.Binary64.Range
import PatternLoom.Midi.Grid

/-! Where numbers come from integers or from finite numbers they are no `nan`, and where a
conversion succeeds they are finite. The step of a grid is always finite. -/

namespace PatternLoom
namespace Binary64

theorem isNan_of_isFinite {x : Binary64} (h : x.isFinite) : x.isNan = false := by
  cases x with
  | nan => simp [isFinite] at h
  | infinity _ => rfl
  | finite _ _ _ => rfl

theorem isNan_ofUnits (negative : Bool) (num den : Nat) :
    (ofUnits negative num den).isNan = false := by
  unfold ofUnits
  split <;> rfl

theorem isNan_ofFraction (negative : Bool) (num den : Nat) :
    (ofFraction negative num den).isNan = false := by
  rw [ofFraction]
  exact isNan_ofUnits _ _ _

theorem isNan_mul {x y : Binary64} (hx : x.isFinite) (hy : y.isFinite) :
    (x * y).isNan = false := by
  obtain ⟨a, u, hu, rfl⟩ := exists_finite hx
  obtain ⟨b, v, hv, rfl⟩ := exists_finite hy
  rw [mul_finite]
  exact isNan_ofUnits _ _ _

theorem div_finite {a b : Bool} {u v : Nat} {hu : Representable u} {hv : Representable v}
    (h : v ≠ 0) : finite a u hu / finite b v hv = ofUnits (a != b) (u * unitsPerOne) v := by
  change div _ _ = _
  simp only [div, if_neg h]

theorem isNan_add {x y : Binary64} (hx : x.isNan = false) (hy : y.isFinite) :
    (x + y).isNan = false := by
  obtain ⟨b, v, hv, rfl⟩ := exists_finite hy
  cases x with
  | nan => simp [isNan] at hx
  | infinity _ => rfl
  | finite a u hu =>
    change (ofSignedUnits (a && b) ((finite a u hu).units + (finite b v hv).units)).isNan = false
    unfold ofSignedUnits
    split
    · rfl
    · exact isNan_ofUnits _ _ _

theorem isFinite_larger {x y : Binary64} (hx : x.isFinite) (hy : y.isFinite) :
    (x.larger y).isFinite := by
  unfold larger
  split
  · exact hy
  · exact hx

theorem isZero_iff {b : Bool} {v : Nat} {hv : Representable v} :
    (finite b v hv).isZero = true ↔ v = 0 := by
  simp only [isZero, decide_eq_true_eq]

theorem units_of_isZero {x : Binary64} (h : x.isZero) : x.units = 0 := by
  cases x with
  | nan => rfl
  | infinity _ => rfl
  | finite b v hv =>
    obtain rfl := isZero_iff.mp h
    cases b <;> rfl

theorem isNan_div {x y : Binary64} (hx : x.isNan = false) (hy : y.isFinite)
    (h : y.isZero = false) : (x / y).isNan = false := by
  obtain ⟨b, v, hv, rfl⟩ := exists_finite hy
  have hv0 : v ≠ 0 := by
    rintro rfl
    rw [isZero_iff.mpr rfl] at h
    cases h
  cases x with
  | nan => simp [isNan] at hx
  | infinity _ => rfl
  | finite a u hu =>
    rw [div_finite hv0]
    exact isNan_ofUnits _ _ _

def isInfinite : Binary64 → Bool
  | infinity _ => true
  | _ => false

theorem isInfinite_eq_false {x : Binary64} (h : x.isNan = false) :
    x.isInfinite = false ↔ x.isFinite := by
  cases x with
  | nan => simp [isNan] at h
  | infinity _ => simp [isInfinite, isFinite]
  | finite _ _ _ => simp [isInfinite, isFinite]

/-- Division by one or more leads neither to infinity nor back. -/
theorem isInfinite_div (x : Binary64) {y : Binary64} (hy : y.isFinite)
    (h : (unitsPerOne : Int) ≤ y.units) : (x / y).isInfinite = x.isInfinite := by
  obtain ⟨b, v, hv, rfl⟩ := exists_finite hy
  have hv : unitsPerOne ≤ v := by
    cases b <;> simp only [units] at h <;> omega
  have hpos := unitsPerOne_pos
  cases x with
  | nan => rfl
  | infinity _ => rfl
  | finite a u hu =>
    have hle := hu.le
    have hhalf := halfSpacing_pos
    rw [div_finite (by omega)]
    change _ = false
    rw [isInfinite_eq_false (isNan_ofUnits _ _ _), isFinite_ofUnits (by omega)]
    calc u * unitsPerOne
        < overflow * unitsPerOne := Nat.mul_lt_mul_of_pos_right (by omega) hpos
      _ ≤ overflow * v := Nat.mul_le_mul_left _ hv

theorem infinity_add (negative : Bool) {y : Binary64} (hy : y.isFinite) :
    infinity negative + y = infinity negative := by
  obtain ⟨_, _, _, rfl⟩ := exists_finite hy
  rfl

/-- Adding one half keeps a number finite, or not. -/
theorem isFinite_add_half {x : Binary64} (h : x.isNan = false) :
    (x + 0.5).isFinite = x.isFinite := by
  cases x with
  | nan => simp [isNan] at h
  | infinity negative =>
    rw [infinity_add negative half_lt.1]
  | finite negative u hu =>
    have hx := natAbs_units_le (x := finite negative u hu) rfl
    have hhalf := half_lt.2
    have hfin := (isFinite_add (x := finite negative u hu) rfl half_lt.1).mpr (by omega)
    rw [hfin]
    rfl

/-- Rounding to decimal places keeps a number finite, or not. -/
theorem isInfinite_roundTo (places : Nat) (x : Binary64) :
    (Decimal.roundTo places x).isInfinite = x.isInfinite := by
  cases x with
  | nan => rfl
  | infinity _ => rfl
  | finite negative u hu =>
    have hle := hu.le
    have hunits : unitsPerOne ≤ halfSpacing := by
      unfold unitsPerOne halfSpacing
      exact Nat.pow_le_pow_right (by decide) (by decide)
    have hpow : 0 < Nat.pow 10 places := Nat.pow_pos (by decide)
    have hscaled := nearestEven_mul_le (u * Nat.pow 10 places) unitsPerOne
    have hhalf : halfSpacing ≤ halfSpacing * Nat.pow 10 places :=
      Nat.le_mul_of_pos_right _ hpow
    have hsum : u * Nat.pow 10 places + halfSpacing * Nat.pow 10 places ≤
        overflow * Nat.pow 10 places := by
      rw [← Nat.add_mul]
      exact Nat.mul_le_mul_right _ hle
    have hpos := halfSpacing_pos
    change (ofFraction negative (Decimal.scaled places u) (Nat.pow 10 places)).isInfinite = false
    rw [isInfinite_eq_false (isNan_ofFraction _ _ _), isFinite_ofFraction hpow, Decimal.scaled]
    omega

theorem isFinite_of_inRange {x y : Binary64} (hx : x.isNan = false) (h : x.inRange = .ok y) :
    y.isFinite := by
  cases x with
  | nan => simp [isNan] at hx
  | infinity _ => simp [inRange] at h
  | finite _ _ _ =>
    simp only [inRange, Except.ok.injEq] at h
    rw [← h]
    rfl

theorem isFinite_of_ofInt {n : Int} {x : Binary64} (h : ofInt n = .ok x) : x.isFinite :=
  isFinite_of_inRange (isNan_ofFraction _ _ _) h

theorem isFinite_of_ofQuotient {m n : Int} {x : Binary64} (h : ofQuotient m n = .ok x) :
    x.isFinite := by
  rw [ofQuotient] at h
  split at h
  · cases h
  · exact isFinite_of_inRange (isNan_ofFraction _ _ _) h

theorem eq_of_inRange {x y : Binary64} (h : x.inRange = .ok y) : y = x := by
  cases x with
  | nan => exact (Except.ok.inj h).symm
  | infinity _ => cases h
  | finite _ _ _ => exact (Except.ok.inj h).symm

theorem ofInt_in_range {n : Int} {y : Binary64} (h : ofInt n = .ok y) :
    n.natAbs * unitsPerOne < overflow := by
  have hfinite := isFinite_of_ofInt h
  rwa [eq_of_inRange h, isFinite_ofFraction Nat.one_pos, Nat.mul_one] at hfinite

/-- A count that is beyond the range of numbers. -/
def BeyondRange (n : Nat) : Prop := overflow ≤ n * unitsPerOne

theorem ofInt_eq_error {n : Int} (h : BeyondRange n.natAbs) : ofInt n = .error .beyondRange := by
  have hfinite : ¬ (ofFraction (n < 0) n.natAbs 1).isFinite := by
    rw [isFinite_ofFraction Nat.one_pos, Nat.mul_one]
    exact not_lt.mpr h
  have hnan := isNan_ofFraction (n < 0) n.natAbs 1
  rw [ofInt]
  cases hx : ofFraction (n < 0) n.natAbs 1 with
  | nan =>
    rw [hx] at hnan
    cases hnan
  | infinity _ => rfl
  | finite _ _ _ =>
    rw [hx] at hfinite
    exact absurd rfl hfinite

theorem not_beyondRange {n : Nat} (hn : n ≤ 2 ^ 110) : ¬ BeyondRange n :=
  not_le.mpr ((Nat.mul_le_mul_right _ hn).trans_lt two_pow_mul_unitsPerOne_lt)

theorem isZero_ofUnits {negative : Bool} {num den : Nat} :
    (ofUnits negative num den).isZero = true ↔ nearestMagnitude num den = 0 := by
  unfold ofUnits
  split
  · exact isZero_iff
  · rename_i h
    have hpos := magnitudeBound_pos
    exact iff_of_false Bool.false_ne_true (by omega)

theorem nearestMagnitude_ne_zero {num den : Nat} (h : num / den ≠ 0) :
    nearestMagnitude num den ≠ 0 := by
  have hstep : 0 < spacing (num / den) := Nat.two_pow_pos _
  have hquot : 0 < num / (den * spacing (num / den)) := by
    rw [← Nat.div_div_eq_div_mul]
    exact Nat.div_pos (spacing_le_self h) hstep
  have hround := le_nearestEven num (den * spacing (num / den))
  exact (Nat.mul_pos (hquot.trans_le hround) hstep).ne'

/-- Only zero becomes zero. -/
theorem isZero_of_ofInt {n : Int} {x : Binary64} (h : ofInt n = .ok x) :
    x.isZero = true ↔ n = 0 := by
  rw [eq_of_inRange h, ofFraction, isZero_ofUnits]
  constructor
  · intro hzero
    by_contra hn
    refine nearestMagnitude_ne_zero ?_ hzero
    rw [Nat.div_one]
    exact (Nat.mul_pos (Int.natAbs_pos.mpr hn) unitsPerOne_pos).ne'
  · rintro rfl
    simp [nearestMagnitude, nearestEven, spacing]

theorem one_eq : ∃ h, (1 : Binary64) = finite false unitsPerOne h :=
  ⟨by decide +kernel, by decide +kernel⟩

/-- What is above one has a finite inverse. -/
theorem quotient_one_eq_ok {x : Binary64} (h : 1 < x) :
    ∃ y, quotient 1 x = .ok y ∧ y.isFinite := by
  obtain ⟨hone, he⟩ := one_eq
  cases x with
  | nan =>
    rw [he] at h
    simp [LT.lt, lt] at h
  | infinity negative =>
    refine ⟨_, rfl, ?_⟩
    rw [he]
    rfl
  | finite negative v hv =>
    have hlt : unitsPerOne < v := by
      rw [he, lt_finite] at h
      cases negative <;> simp only [units] at h <;> omega
    have hv0 : v ≠ 0 := by omega
    have hzero : (finite negative v hv).isZero = false :=
      Bool.eq_false_of_not_eq_true fun h => hv0 (isZero_iff.mp h)
    have hover : unitsPerOne < overflow := by
      have hle := hone.le
      have hpos := halfSpacing_pos
      omega
    refine ⟨1 / finite negative v hv, by rw [quotient, hzero]; rfl, ?_⟩
    rw [he, div_finite hv0, isFinite_ofUnits (by omega)]
    calc unitsPerOne * unitsPerOne
        < overflow * unitsPerOne := Nat.mul_lt_mul_of_pos_right hover unitsPerOne_pos
      _ ≤ overflow * v := Nat.mul_le_mul_left _ hlt.le

end Binary64

/-- One over a quantity of at least one. -/
theorem Midi.gridStep_eq_ok (division : Quantity) :
    ∃ step, gridStep division = .ok step ∧ step.isFinite := by
  have hwhole : ∀ n : Int, 1 ≤ n → ∃ step, Binary64.ofQuotient 1 n = .ok step ∧ step.isFinite := by
    intro n hn
    obtain ⟨hone, _⟩ := Binary64.one_eq
    have hlt : (1 : Int).natAbs * unitsPerOne < overflow * n.natAbs := by
      have hle := hone.le
      have hpos := halfSpacing_pos
      calc (1 : Int).natAbs * unitsPerOne
          < overflow := by simp; omega
        _ ≤ overflow * n.natAbs := Nat.le_mul_of_pos_right _ (by omega)
    obtain ⟨step, hstep, hfin, _⟩ := Binary64.ofQuotient_eq_ok (by omega) hlt
    exact ⟨step, hstep, hfin⟩
  cases division with
  | whole n => exact hwhole (max 1 n) (by omega)
  | real x =>
    rw [gridStep, Quantity.atLeastOne]
    split
    · rename_i h
      exact Binary64.quotient_one_eq_ok h
    · exact hwhole 1 le_rfl

end PatternLoom
