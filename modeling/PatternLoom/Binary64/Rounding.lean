import PatternLoom.Binary64.Basic

/-! Rounding a ratio of natural numbers to the nearest representable magnitude, ties to
the even neighbour. Every operation that is not exact ends in this one rounding. -/

namespace PatternLoom

/-- The natural number nearest to `num / den`, the even one of two equally near. -/
def nearestEven (num den : Nat) : Nat :=
  let quotient := num / den
  let twice := 2 * (num % den)
  if twice < den ∨ (twice = den ∧ quotient % 2 = 0) then quotient else quotient + 1

/-- The spacing of the representable magnitudes from `u` on. -/
def spacing (u : Nat) : Nat := Nat.pow 2 (u.log2 - 52)

/-- The representable magnitude nearest to `num / den`, without regard to overflow. -/
def nearestMagnitude (num den : Nat) : Nat :=
  let step := spacing (num / den)
  nearestEven num (den * step) * step

theorem nearestEven_le (num den : Nat) : nearestEven num den ≤ num / den + 1 := by
  unfold nearestEven
  dsimp only
  split <;> omega

theorem le_nearestEven (num den : Nat) : num / den ≤ nearestEven num den := by
  unfold nearestEven
  dsimp only
  split <;> omega

/-- In steps of its own spacing a number counts fewer than 2^53. -/
theorem div_spacing_lt (u : Nat) : u / spacing u < Nat.pow 2 53 := by
  rw [spacing, Nat.pow_eq, Nat.pow_eq, Nat.div_lt_iff_lt_mul (Nat.two_pow_pos _), ← Nat.pow_add]
  exact Nat.lt_of_lt_of_le Nat.lt_log2_self (Nat.pow_le_pow_right (by decide) (by omega))

theorem two_pow_dvd_of_le {k s m : Nat} (h : m * Nat.pow 2 s ≤ Nat.pow 2 (53 + s))
    (hk : (m * Nat.pow 2 s).log2 = k) : Nat.pow 2 (k - 52) ∣ m * Nat.pow 2 s := by
  simp only [Nat.pow_eq] at *
  by_cases hm : m = 0
  · simp [hm]
  have hpos : m * 2 ^ s ≠ 0 := Nat.mul_ne_zero hm (Nat.ne_of_gt (Nat.two_pow_pos s))
  rcases Nat.lt_or_ge (m * 2 ^ s) (2 ^ (53 + s)) with hlt | hge
  · have hk' : k < 53 + s := hk ▸ (Nat.log2_lt hpos).2 hlt
    exact Nat.dvd_trans (Nat.pow_dvd_pow 2 (by omega)) (Nat.dvd_mul_left _ _)
  · have he : m * 2 ^ s = 2 ^ (53 + s) := Nat.le_antisymm h hge
    rw [he] at hk ⊢
    rw [Nat.log2_two_pow] at hk
    exact Nat.pow_dvd_pow 2 (by omega)

theorem nearestMagnitude_dvd (num den : Nat) :
    Nat.pow 2 ((nearestMagnitude num den).log2 - 52) ∣ nearestMagnitude num den := by
  refine two_pow_dvd_of_le ?_ rfl
  have hq : num / (den * spacing (num / den)) < Nat.pow 2 53 := by
    rw [← Nat.div_div_eq_div_mul]
    exact div_spacing_lt _
  have hn := nearestEven_le num (den * spacing (num / den))
  rw [Nat.pow_eq (n := 53 + _), Nat.pow_add]
  exact Nat.mul_le_mul_right _ (Nat.le_trans hn hq)

theorem representable_nearestMagnitude {num den : Nat}
    (h : nearestMagnitude num den < magnitudeBound) : Representable (nearestMagnitude num den) :=
  ⟨h, nearestMagnitude_dvd num den⟩

namespace Binary64

/-- The number nearest to `num / den` units, infinite from 2^1024 on. -/
def ofUnits (negative : Bool) (num den : Nat) : Binary64 :=
  if h : nearestMagnitude num den < magnitudeBound then
    finite negative (nearestMagnitude num den) (representable_nearestMagnitude h)
  else infinity negative

def ofFraction (negative : Bool) (num den : Nat) : Binary64 :=
  ofUnits negative (num * unitsPerOne) den

instance (n : Nat) : OfNat Binary64 n := ⟨ofFraction false n 1⟩

/-- Decimal literals denote the nearest number. -/
instance : OfScientific Binary64 where
  ofScientific digits negativeExponent exponent :=
    if negativeExponent then ofFraction false digits (Nat.pow 10 exponent)
    else ofFraction false (digits * Nat.pow 10 exponent) 1

end Binary64
end PatternLoom
