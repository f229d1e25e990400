import Mathlib
import PatternLoom.Proofs.Binary64.Range

/-! Rounding keeps the order of what it rounds, and leaves alone what has few enough digits.
So a bound by such a magnitude holds after rounding if it held before. -/

namespace PatternLoom

/-- A magnitude of at most 53 significant bits, however large. -/
def Precise (u : Nat) : Prop := spacing u ∣ u

theorem Representable.precise {u : Nat} (h : Representable u) : Precise u := h.2

theorem Precise.representable {u : Nat} (h : Precise u) (hlt : u < magnitudeBound) :
    Representable u := ⟨hlt, h⟩

theorem precise_nearestMagnitude (num den : Nat) : Precise (nearestMagnitude num den) :=
  nearestMagnitude_dvd num den

theorem precise_mul_two_pow {m : Nat} (h : m ≤ 2 ^ 53) (s : Nat) : Precise (m * 2 ^ s) := by
  refine two_pow_dvd_of_le ?_ rfl
  rw [Nat.pow_eq, Nat.pow_eq, Nat.pow_add]
  exact Nat.mul_le_mul_right _ h

theorem spacing_pos (u : Nat) : 0 < spacing u := Nat.two_pow_pos _

theorem spacing_dvd_spacing {u v : Nat} (h : u.log2 ≤ v.log2) : spacing u ∣ spacing v :=
  Nat.pow_dvd_pow 2 (Nat.sub_le_sub_right h 52)

theorem log2_mono {u v : Nat} (h : u ≤ v) : u.log2 ≤ v.log2 := by
  rw [Nat.log2_eq_log_two, Nat.log2_eq_log_two]
  exact Nat.log_mono_right h

theorem lt_two_pow_log2 {u v : Nat} (h : u.log2 < v.log2) : u < 2 ^ v.log2 :=
  Nat.lt_log2_self.trans_le (Nat.pow_le_pow_right (by decide) h)

theorem div_le_div_of_cross {a b c d : Nat} (hc : 0 < c) (hd : 0 < d) (h : a * d ≤ b * c) :
    a / c ≤ b / d := by
  refine (Nat.le_div_iff_mul_le hd).mpr (Nat.le_of_mul_le_mul_right ?_ hc)
  calc a / c * d * c
      = a / c * c * d := Nat.mul_right_comm _ _ _
    _ ≤ a * d := Nat.mul_le_mul_right _ (Nat.div_mul_le_self _ _)
    _ ≤ b * c := h

theorem nearestEven_mono {a b c d : Nat} (hc : 0 < c) (hd : 0 < d) (h : a * d ≤ b * c) :
    nearestEven a c ≤ nearestEven b d := by
  rcases (div_le_div_of_cross hc hd h).lt_or_eq with hlt | heq
  · exact (nearestEven_le a c).trans (hlt.trans_le (le_nearestEven b d))
  · have ha := Nat.div_add_mod a c
    have hb := Nat.div_add_mod b d
    rw [← heq] at hb
    have hrest : a % c * d ≤ b % d * c := by
      rw [← ha, ← hb, Nat.add_mul, Nat.add_mul, Nat.mul_right_comm c, Nat.mul_right_comm d,
        Nat.mul_comm d c] at h
      exact Nat.le_of_add_le_add_left h
    unfold nearestEven
    dsimp only
    rw [← heq]
    split
    · split <;> omega
    · rename_i hup
      split
      · rename_i hdown
        have hge : d ≤ 2 * (b % d) := by
          refine Nat.le_of_mul_le_mul_right (?_ : d * c ≤ _ * c) hc
          have hc' : c ≤ 2 * (a % c) := by omega
          calc d * c ≤ 2 * (a % c) * d := by
                rw [Nat.mul_comm d c]
                exact Nat.mul_le_mul_right _ hc'
            _ ≤ 2 * (b % d) * c := by
                rw [Nat.mul_assoc, Nat.mul_assoc]
                exact Nat.mul_le_mul_left _ hrest
        have hle : 2 * (a % c) ≤ c := by
          refine Nat.le_of_mul_le_mul_right (?_ : _ * d ≤ c * d) hd
          have hd' : 2 * (b % d) ≤ d := by omega
          calc 2 * (a % c) * d ≤ 2 * (b % d) * c := by
                rw [Nat.mul_assoc, Nat.mul_assoc]
                exact Nat.mul_le_mul_left _ hrest
            _ ≤ c * d := by
                rw [Nat.mul_comm c d]
                exact Nat.mul_le_mul_right _ hd'
        omega
      · exact le_rfl

theorem nearestEven_zero (den : Nat) : nearestEven 0 den = 0 := by
  unfold nearestEven
  rw [Nat.zero_div, Nat.zero_mod]
  exact if_pos (by omega)

theorem nearestMagnitude_zero (den : Nat) : nearestMagnitude 0 den = 0 := by
  rw [nearestMagnitude, nearestEven_zero, Nat.zero_mul]

/-- An even count is also taken from the middle between it and the next one. -/
theorem nearestEven_le_iff {num den m : Nat} (hd : 0 < den) (hm : m % 2 = 0) :
    nearestEven num den ≤ m ↔ 2 * num ≤ (2 * m + 1) * den := by
  have hsplit := Nat.div_add_mod num den
  have hmod := Nat.mod_lt num hd
  rcases Nat.lt_trichotomy (num / den) m with hlt | heq | hgt
  · have hcount : den * (num / den + 1) ≤ den * m := Nat.mul_le_mul_left _ hlt
    have hle := nearestEven_le num den
    refine iff_of_true (by omega) ?_
    linarith [Nat.mul_comm den m, Nat.mul_succ den (num / den)]
  · have hcount : den * (num / den) = den * m := by rw [heq]
    have htwice : (2 * m + 1) * den = 2 * (den * m) + den := by ring
    unfold nearestEven
    dsimp only
    rw [heq, htwice]
    split <;> omega
  · have hcount : den * (m + 1) ≤ den * (num / den) := Nat.mul_le_mul_left _ hgt
    have hle := le_nearestEven num den
    refine iff_of_false (by omega) (not_le.mpr ?_)
    have htwice : (2 * m + 1) * den = 2 * (den * m) + den := by ring
    rw [Nat.mul_succ] at hcount
    omega

theorem nearestEven_mul (n : Nat) {d : Nat} (hd : 0 < d) : nearestEven (n * d) d = n := by
  unfold nearestEven
  rw [Nat.mul_div_cancel _ hd, Nat.mul_mod_left]
  exact if_pos (.inl hd)

section Magnitudes

variable {num den : Nat}

/-- Rounding does not lead below a precise magnitude. -/
theorem Precise.le_nearest {r : Nat} (hr : Precise r) (hd : 0 < den) (h : r * den ≤ num) :
    r ≤ nearestMagnitude num den := by
  have hle : r ≤ num / den := (Nat.le_div_iff_mul_le hd).mpr h
  have hgrid : ∀ t, r ≤ t → t ≤ num / den → spacing (num / den) ∣ t →
      r ≤ nearestMagnitude num den := by
    intro t hrt ht hdvd
    obtain ⟨k, rfl⟩ := hdvd
    refine hrt.trans ?_
    rw [Nat.mul_comm, nearestMagnitude]
    refine Nat.mul_le_mul_right _ (le_trans ?_ (le_nearestEven _ _))
    rw [← Nat.div_div_eq_div_mul]
    exact (Nat.le_div_iff_mul_le (spacing_pos _)).mpr (by rwa [Nat.mul_comm])
  rcases (log2_mono hle).lt_or_eq with hlt | heq
  · have hpos : num / den ≠ 0 := by
      intro h0
      rw [h0] at hlt
      simp at hlt
    refine hgrid _ (lt_two_pow_log2 hlt).le (Nat.log2_self_le hpos) ?_
    exact Nat.pow_dvd_pow 2 (Nat.sub_le _ _)
  · refine hgrid r le_rfl hle ?_
    rw [spacing, ← heq]
    exact hr

/-- Rounding does not lead above a precise magnitude. -/
theorem Precise.nearest_le {r : Nat} (hr : Precise r) (hd : 0 < den) (h : num ≤ r * den) :
    nearestMagnitude num den ≤ r := by
  have hle : num / den ≤ r := Nat.div_le_of_le_mul (by rwa [Nat.mul_comm])
  obtain ⟨k, hk⟩ := (spacing_dvd_spacing (log2_mono hle)).trans hr
  have hstep := spacing_pos (num / den)
  have hstep' : 0 < den * spacing (num / den) := Nat.mul_pos hd hstep
  have hcount : nearestEven num (den * spacing (num / den)) ≤ k := by
    rw [← nearestEven_mul k hstep']
    refine nearestEven_mono hstep' hstep' (Nat.mul_le_mul_right _ ?_)
    calc num ≤ r * den := h
      _ = k * (den * spacing (num / den)) := by
          conv_lhs => rw [hk]
          ring
  calc nearestMagnitude num den
      ≤ k * spacing (num / den) := Nat.mul_le_mul_right _ hcount
    _ = r := by
      conv_rhs => rw [hk, Nat.mul_comm]

theorem nearestMagnitude_mul {r : Nat} (hr : Precise r) (hd : 0 < den) :
    nearestMagnitude (r * den) den = r :=
  le_antisymm (hr.nearest_le hd le_rfl) (hr.le_nearest hd le_rfl)

theorem nearestMagnitude_self {r : Nat} (hr : Precise r) : nearestMagnitude r 1 = r := by
  simpa using nearestMagnitude_mul hr Nat.one_pos

theorem nearestMagnitude_mono {a b c d : Nat} (hc : 0 < c) (hd : 0 < d) (h : a * d ≤ b * c) :
    nearestMagnitude a c ≤ nearestMagnitude b d := by
  have hle := div_le_div_of_cross hc hd h
  rcases (log2_mono hle).lt_or_eq with hlt | heq
  · have hpow : Precise (2 ^ (b / d).log2) := by
      rw [← Nat.one_mul (2 ^ _)]
      exact precise_mul_two_pow (by decide) _
    have hpos : b / d ≠ 0 := by
      intro h0
      rw [h0] at hlt
      simp at hlt
    calc nearestMagnitude a c
        ≤ 2 ^ (b / d).log2 := by
          refine hpow.nearest_le hc (Nat.le_of_lt ?_)
          exact (Nat.div_lt_iff_lt_mul hc).mp (lt_two_pow_log2 hlt)
      _ ≤ nearestMagnitude b d := by
          refine hpow.le_nearest hd ?_
          exact (Nat.le_div_iff_mul_le hd).mp (Nat.log2_self_le hpos)
  · have hs : spacing (a / c) = spacing (b / d) := by rw [spacing, spacing, heq]
    rw [nearestMagnitude, nearestMagnitude, hs]
    have hstep := spacing_pos (b / d)
    refine Nat.mul_le_mul_right _ (nearestEven_mono (Nat.mul_pos hc hstep) (Nat.mul_pos hd hstep) ?_)
    rw [← Nat.mul_assoc, ← Nat.mul_assoc]
    exact Nat.mul_le_mul_right _ h

end Magnitudes

namespace Binary64

theorem ofUnits_eq_finite {negative : Bool} {num den u : Nat} (hu : Representable u)
    (h : nearestMagnitude num den = u) : ofUnits negative num den = finite negative u hu := by
  subst h
  exact dif_pos hu.1

theorem lt_iff_units {x y : Binary64} (hx : x.isFinite) (hy : y.isFinite) :
    x < y ↔ x.units < y.units := by
  obtain ⟨a, u, hu, rfl⟩ := exists_finite hx
  obtain ⟨b, v, hv, rfl⟩ := exists_finite hy
  exact lt_finite

end Binary64

end PatternLoom
