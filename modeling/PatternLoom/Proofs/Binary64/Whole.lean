import Mathlib
import PatternLoom.Proofs.Binary64.Nearest
import PatternLoom.Proofs.Binary64.Number
import PatternLoom.Proofs.Binary64.Value
import PatternLoom.Proofs.Result
import PatternLoom.Timeline

/-! Rounding to the nearest integer. Adding one half is itself rounded, from `2^52` on with
ties to even; an integer that came out of it is one that it leaves alone. -/

namespace PatternLoom

/-- The units in one half. -/
@[irreducible]
def unitsPerHalf : Nat := 2 ^ 1073

theorem unitsPerOne_eq : unitsPerOne = 2 * unitsPerHalf := by
  unfold unitsPerOne unitsPerHalf
  rw [Nat.pow_eq, two_pow_split (show 1 + 1073 = 1074 from rfl), Nat.pow_one]

theorem unitsPerHalf_pos : 0 < unitsPerHalf := by
  unfold unitsPerHalf
  exact Nat.two_pow_pos _

theorem precise_mul_unitsPerOne {m : Nat} (h : m ≤ 2 ^ 53) : Precise (m * unitsPerOne) :=
  precise_mul_two_pow h 1074

theorem precise_mul_unitsPerHalf {m : Nat} (h : m ≤ 2 ^ 53) : Precise (m * unitsPerHalf) := by
  unfold unitsPerHalf
  exact precise_mul_two_pow h 1073

theorem two_pow_mul_unitsPerOne (k : Nat) : 2 ^ k * unitsPerOne = 2 ^ (k + 1074) :=
  (Nat.pow_add 2 k 1074).symm

theorem nat_pow_eq_unitsPerOne : Nat.pow 2 1074 = unitsPerOne := rfl

theorem nat_pow_eq_unitsPerHalf : Nat.pow 2 1073 = unitsPerHalf := by
  unfold unitsPerHalf
  rfl

section Spacing

attribute [local irreducible] unitsPerOne

variable {k u : Nat}

theorem le_log2 (h : 2 ^ k * unitsPerOne ≤ u) : k + 1074 ≤ u.log2 := by
  rw [two_pow_mul_unitsPerOne] at h
  exact (Nat.le_log2 ((Nat.two_pow_pos _).trans_le h).ne').mpr h

theorem log2_lt (hu : u ≠ 0) (h : u < 2 ^ k * unitsPerOne) : u.log2 < k + 1074 := by
  rw [two_pow_mul_unitsPerOne] at h
  exact (Nat.log2_lt hu).mpr h

theorem ne_zero_of_le (h : 2 ^ k * unitsPerOne ≤ u) : u ≠ 0 :=
  ((Nat.mul_pos (Nat.two_pow_pos _) unitsPerOne_pos).trans_le h).ne'

/-- From `2^52` on the magnitudes are a whole number apart. -/
theorem dvd_spacing (h : 2 ^ 52 * unitsPerOne ≤ u) : unitsPerOne ∣ spacing u := by
  have hlog := le_log2 h
  rw [← nat_pow_eq_unitsPerOne]
  exact Nat.pow_dvd_pow 2 (by omega)

theorem spacing_eq_one (h : 2 ^ 52 * unitsPerOne ≤ u) (h' : u < 2 ^ 53 * unitsPerOne) :
    spacing u = unitsPerOne := by
  have hlow := le_log2 h
  have hhigh := log2_lt (ne_zero_of_le h) h'
  have heq : u.log2 - 52 = 1074 := by omega
  rw [spacing, heq, nat_pow_eq_unitsPerOne]

theorem spacing_eq_half (h : 2 ^ 51 * unitsPerOne ≤ u) (h' : u < 2 ^ 52 * unitsPerOne) :
    spacing u = unitsPerHalf := by
  have hlow := le_log2 h
  have hhigh := log2_lt (ne_zero_of_le h) h'
  have heq : u.log2 - 52 = 1073 := by omega
  rw [spacing, heq, nat_pow_eq_unitsPerHalf]

theorem two_mul_dvd_spacing (h : 2 ^ 53 * unitsPerOne ≤ u) : 2 * unitsPerOne ∣ spacing u := by
  have hlog := le_log2 h
  have htwo := two_pow_mul_unitsPerOne 1
  rw [Nat.pow_one] at htwo
  rw [htwo]
  exact Nat.pow_dvd_pow 2 (by omega)

end Spacing

section Half

attribute [local irreducible] unitsPerOne

theorem even_nearestEven {num den : Nat} (h : 2 * (num % den) = den) :
    nearestEven num den % 2 = 0 := by
  unfold nearestEven
  dsimp only
  split <;> omega

/-- The integer nearest to a magnitude, as it is worked out. -/
def halfUp (u : Nat) : Nat := nearestMagnitude (u + unitsPerHalf) 1 / unitsPerOne

theorem halfUp_mono {u v : Nat} (h : u ≤ v) : halfUp u ≤ halfUp v :=
  Nat.div_le_div_right (nearestMagnitude_mono Nat.one_pos Nat.one_pos (by omega))

theorem halfUp_whole {m : Nat} (h : m < 2 ^ 52) : halfUp (m * unitsPerOne) = m := by
  have hhalf := unitsPerHalf_pos
  have hsum : m * unitsPerOne + unitsPerHalf = (2 * m + 1) * unitsPerHalf := by
    rw [unitsPerOne_eq]
    ring
  rw [halfUp, hsum, nearestMagnitude_self (precise_mul_unitsPerHalf (by omega)), unitsPerOne_eq]
  exact Nat.div_eq_of_lt_le (by linarith) (by linarith)

/-- From `2^52` on the middle between two integers is rounded to the even one of them. -/
theorem nearest_middle {k : Nat} (hk : 2 ^ 52 ≤ k)
    (h : Precise (k * unitsPerOne) ∨ Precise ((k + 1) * unitsPerOne)) :
    nearestMagnitude (k * unitsPerOne + unitsPerHalf) 1 = (k + k % 2) * unitsPerOne := by
  have hone := unitsPerOne_eq
  have hpos := unitsPerOne_pos
  have hlarge := Nat.mul_le_mul_right unitsPerOne hk
  have hnext : (k + 1) * unitsPerOne = k * unitsPerOne + unitsPerOne := Nat.succ_mul _ _
  obtain ⟨hbelow, habove⟩ : k * unitsPerOne + unitsPerHalf ≤
      nearestMagnitude (k * unitsPerOne + unitsPerHalf) 1 + unitsPerHalf ∧
      nearestMagnitude (k * unitsPerOne + unitsPerHalf) 1 ≤
        k * unitsPerOne + unitsPerHalf + unitsPerHalf := by
    rcases h with h | h
    · exact h.nearest_within (by omega) (by omega)
    · exact h.nearest_within (by omega) (by omega)
  generalize hw : nearestMagnitude (k * unitsPerOne + unitsPerHalf) 1 = w at hbelow habove ⊢
  have hprecise : Precise w := hw ▸ precise_nearestMagnitude _ _
  obtain ⟨c, rfl⟩ : unitsPerOne ∣ w := (dvd_spacing (by omega)).trans hprecise
  have hcount : k ≤ c ∧ c ≤ k + 1 :=
    ⟨Nat.le_of_mul_le_mul_left (by linarith) hpos, Nat.le_of_mul_le_mul_left (by linarith) hpos⟩
  have heven : c % 2 = 0 := by
    rcases Nat.lt_or_ge k (2 ^ 53) with hlt | hge
    · -- the integers are as far apart as the magnitudes here, so this is a tie
      have hupper := Nat.mul_le_mul_right unitsPerOne (show k + 1 ≤ 2 ^ 53 from hlt)
      have hspacing : spacing (k * unitsPerOne + unitsPerHalf) = unitsPerOne :=
        spacing_eq_one (by omega) (by omega)
      have htie : 2 * ((k * unitsPerOne + unitsPerHalf) % unitsPerOne) = unitsPerOne := by
        rw [Nat.mul_add_mod_self_right, Nat.mod_eq_of_lt (by omega), hone]
      rw [nearestMagnitude, Nat.div_one, hspacing, Nat.one_mul, Nat.mul_comm] at hw
      rw [← Nat.eq_of_mul_eq_mul_left hpos hw]
      exact even_nearestEven htie
    · have hupper := Nat.mul_le_mul_right unitsPerOne (hge.trans hcount.1)
      obtain ⟨j, hj⟩ := (two_mul_dvd_spacing (by linarith)).trans hprecise
      have hj' : c = 2 * j := Nat.eq_of_mul_eq_mul_left hpos (by linarith)
      omega
  rw [Nat.mul_comm]
  congr 1
  omega

/-- Below `2^52` the magnitudes are a half apart or nearer. -/
theorem add_half_le {u : Nat} (hu : Precise u) (h : u < 2 ^ 52 * unitsPerOne) :
    u + unitsPerHalf ≤ 2 ^ 52 * unitsPerOne := by
  have hone := unitsPerOne_eq
  by_contra hc
  rw [Precise, spacing_eq_half (by omega) h] at hu
  have hdvd : unitsPerHalf ∣ 2 ^ 52 * unitsPerOne := by
    rw [hone]
    exact (Nat.dvd_mul_left _ 2).mul_left _
  exact hc (Nat.le_of_lt_add_of_dvd (Nat.add_lt_add_right h _) (hu.add (Nat.dvd_refl _)) hdvd)

/-- From `2^52` on an even integer comes out. -/
theorem even_nearest_add_half {u : Nat} (hu : Precise u)
    (h : 2 ^ 52 * unitsPerOne ≤ nearestMagnitude (u + unitsPerHalf) 1) :
    ∃ k, nearestMagnitude (u + unitsPerHalf) 1 = 2 * k * unitsPerOne := by
  rcases Nat.lt_or_ge u (2 ^ 52 * unitsPerOne) with hbelow | habove
  · have hlow : Precise (2 ^ 52 * unitsPerOne) := precise_mul_unitsPerOne (by decide)
    have hle := hlow.nearest_le Nat.one_pos ((add_half_le hu hbelow).trans_eq (Nat.mul_one _).symm)
    exact ⟨2 ^ 51, by omega⟩
  · obtain ⟨k, rfl⟩ : unitsPerOne ∣ u := (dvd_spacing habove).trans hu
    rw [Nat.mul_comm] at hu habove ⊢
    refine ⟨(k + k % 2) / 2, ?_⟩
    rw [nearest_middle (Nat.le_of_mul_le_mul_right habove unitsPerOne_pos) (.inl hu)]
    congr 1
    omega

/-- One half more than a magnitude that came from a sum with one half is rounded back. -/
theorem nearest_add_half {u y : Nat} (hu : Precise u)
    (hy : y = nearestMagnitude (u + unitsPerHalf) 1) (h : 2 ^ 52 * unitsPerOne ≤ y) :
    nearestMagnitude (y + unitsPerHalf) 1 = y := by
  have hprecise : Precise y := hy ▸ precise_nearestMagnitude _ _
  obtain ⟨k, hk⟩ := even_nearest_add_half hu (hy ▸ h)
  rw [← hy] at hk
  rw [hk] at h hprecise ⊢
  rw [nearest_middle (Nat.le_of_mul_le_mul_right h unitsPerOne_pos) (.inl hprecise),
    Nat.mul_mod_right, Nat.add_zero]

/-- A rounded magnitude is precise, and rounding it again changes nothing. -/
theorem halfUp_halfUp {u : Nat} (hu : Precise u) :
    Precise (halfUp u * unitsPerOne) ∧ halfUp (halfUp u * unitsPerOne) = halfUp u := by
  have hone := unitsPerOne_pos
  rcases Nat.lt_or_ge (halfUp u) (2 ^ 52) with hlt | hge
  · exact ⟨precise_mul_unitsPerOne (by omega), halfUp_whole hlt⟩
  · -- Here the sum with one half is not exact, and is rounded to an integer itself.
    have hlarge : 2 ^ 52 * unitsPerOne ≤ nearestMagnitude (u + unitsPerHalf) 1 :=
      (Nat.le_div_iff_mul_le hone).mp hge
    have hdvd : unitsPerOne ∣ nearestMagnitude (u + unitsPerHalf) 1 :=
      (dvd_spacing hlarge).trans (precise_nearestMagnitude _ _)
    have hwhole : halfUp u * unitsPerOne = nearestMagnitude (u + unitsPerHalf) 1 :=
      Nat.div_mul_cancel hdvd
    refine ⟨hwhole ▸ precise_nearestMagnitude _ _, ?_⟩
    conv_lhs => rw [hwhole, halfUp, nearest_add_half hu rfl hlarge]
    rfl

end Half

namespace Binary64

theorem half_eq : ∃ h, (0.5 : Binary64) = finite false unitsPerHalf h := by
  unfold unitsPerHalf
  exact ⟨by decide +kernel, by decide +kernel⟩

theorem ofSignedUnits_natCast {n : Nat} (h : 0 < n) (negative : Bool) :
    ofSignedUnits negative n = ofUnits false n 1 := by
  rw [ofSignedUnits, if_neg (by omega), Int.natAbs_natCast]
  congr 1

theorem add_half {u : Nat} (hu : Representable u) :
    finite false u hu + 0.5 = ofUnits false (u + unitsPerHalf) 1 := by
  obtain ⟨hhalf, he⟩ := half_eq
  have hpos := unitsPerHalf_pos
  rw [he]
  change ofSignedUnits false ((u : Int) + (unitsPerHalf : Int)) = _
  rw [← Nat.cast_add, ofSignedUnits_natCast (by omega)]

theorem nearest_add_half_lt {u : Nat} (hu : Representable u) :
    nearestMagnitude (u + unitsPerHalf) 1 < magnitudeBound := by
  have hfin := isFinite_add_half (x := finite false u hu) rfl
  rw [add_half hu] at hfin
  by_contra hc
  rw [ofUnits, dif_neg hc] at hfin
  cases hfin

theorem roundHalfUp_finite {u : Nat} (hu : Representable u) :
    (finite false u hu).roundHalfUp = .ok (halfUp u : Int) := by
  rw [roundHalfUp, add_half hu,
    ofUnits_eq_finite (representable_nearestMagnitude (nearest_add_half_lt hu)) rfl]
  rfl

theorem ofInt_natCast {n : Nat} (h : Representable (n * unitsPerOne)) :
    ofInt n = .ok (finite false (n * unitsPerOne) h) := by
  have hpos : decide ((n : Int) < 0) = false := by simp
  rw [ofInt, hpos, ofFraction, Int.natAbs_natCast,
    ofUnits_eq_finite h (nearestMagnitude_self h.precise)]
  rfl

/-- An integer that rounding leaves alone. -/
def Settled (n : Int) : Prop := ∃ x, ofInt n = .ok x ∧ x.isFinite ∧ x.roundHalfUp = .ok n

theorem settled_natCast {n : Nat} (hn : Representable (n * unitsPerOne))
    (h : halfUp (n * unitsPerOne) = n) : Settled n := by
  refine ⟨_, ofInt_natCast hn, rfl, ?_⟩
  rw [roundHalfUp_finite hn, h]

theorem settled_of_lt {n : Nat} (h : n < 2 ^ 52) : Settled n := by
  have hbound : 2 ^ 52 * unitsPerOne < magnitudeBound := by decide +kernel
  have hlt : n * unitsPerOne < magnitudeBound :=
    (Nat.mul_le_mul_right _ h.le).trans_lt hbound
  have hwhole : Representable (n * unitsPerOne) :=
    (precise_mul_unitsPerOne (by omega)).representable hlt
  exact settled_natCast hwhole (halfUp_whole h)

theorem settled_one : Settled 1 := by
  have hone := settled_of_lt (n := 1) (by decide)
  rwa [Nat.cast_one] at hone

theorem representable_halfUp {u : Nat} (hu : Representable u) :
    Representable (halfUp u * unitsPerOne) :=
  ⟨(Nat.div_mul_le_self _ _).trans_lt (nearest_add_half_lt hu), (halfUp_halfUp hu.precise).1⟩

theorem settled_halfUp {u : Nat} (hu : Representable u) : Settled (halfUp u) :=
  settled_natCast (representable_halfUp hu) (halfUp_halfUp hu.precise).2

theorem units_ofUnits_le {negative : Bool} {num den r : Nat} (h : nearestMagnitude num den ≤ r) :
    (ofUnits negative num den).units ≤ r := by
  unfold ofUnits
  split
  · cases negative <;> simp only [units] <;> omega
  · simp only [units]
    omega

theorem units_ofSignedUnits_le {negative : Bool} {n : Int} {r : Nat} (hr : Precise r) (h : n ≤ r) :
    (ofSignedUnits negative n).units ≤ r := by
  unfold ofSignedUnits
  split
  · rw [units_zero]
    omega
  · rcases lt_or_ge n 0 with hneg | hpos
    · rw [decide_eq_true hneg, ofUnits]
      split <;> simp only [units] <;> omega
    · exact units_ofUnits_le (hr.nearest_le Nat.one_pos (by omega))

/-- What is not above zero is rounded to zero or below. -/
theorem roundHalfUp_le_zero {u : Nat} {hu : Representable u} {k : Int}
    (h : (finite true u hu).roundHalfUp = .ok k) : k ≤ 0 := by
  obtain ⟨hhalf, he⟩ := half_eq
  have hsum : ((finite true u hu) + 0.5).units ≤ unitsPerHalf := by
    rw [he]
    exact units_ofSignedUnits_le hhalf.precise (by simp only [units]; omega)
  have hfin : ((finite true u hu) + 0.5).isFinite := by
    rw [isFinite_add_half rfl]
    rfl
  rw [roundHalfUp, floor_eq_ok hfin] at h
  obtain rfl := Except.ok.inj h
  have hone := unitsPerOne_eq
  have hpos := unitsPerHalf_pos
  exact Int.lt_add_one_iff.mp (Int.ediv_lt_of_lt_mul (by omega) (by omega))

theorem eq_halfUp_of_roundHalfUp {x : Binary64} {k : Int} (h : x.roundHalfUp = .ok k) (hk : 0 < k) :
    ∃ u, Representable u ∧ k = halfUp u := by
  cases x with
  | nan => cases h
  | infinity negative =>
    obtain ⟨hhalf, he⟩ := half_eq
    rw [roundHalfUp, he] at h
    cases h
  | finite negative u hu =>
    cases negative with
    | true => exact absurd (roundHalfUp_le_zero h) hk.not_ge
    | false =>
      rw [roundHalfUp_finite hu] at h
      exact ⟨u, hu, (Except.ok.inj h).symm⟩

/-- What some number above zero is rounded to, rounding leaves alone. -/
theorem settled_roundHalfUp {x : Binary64} {k : Int} (h : x.roundHalfUp = .ok k) (hk : 0 < k) :
    Settled k := by
  obtain ⟨u, hu, rfl⟩ := eq_halfUp_of_roundHalfUp h hk
  exact settled_halfUp hu

end Binary64

theorem safeBars_of_settled {n : Int} (hpos : 1 ≤ n) (h : Binary64.Settled n) :
    ∃ y, Binary64.ofInt n = .ok y ∧ safeBars y = .ok n := by
  obtain ⟨y, hy, hfin, hround⟩ := h
  refine ⟨y, hy, ?_⟩
  rw [safeBars, if_pos hfin]
  refine bind_eq_ok.mpr ⟨n, hround, ?_⟩
  rw [max_eq_right hpos]
  rfl

/-- The number of bars made of a request is a request for as many. -/
theorem safeBars_safeBars {x : Binary64} {n : Int} (h : safeBars x = .ok n) :
    ∃ y, Binary64.ofInt n = .ok y ∧ safeBars y = .ok n := by
  unfold safeBars at h
  split at h
  · obtain ⟨k, hk, he⟩ := bind_eq_ok.mp h
    obtain rfl := pure_eq_ok.mp he
    refine safeBars_of_settled (le_max_left 1 k) ?_
    rcases le_or_gt k 1 with hle | hlt
    · rw [max_eq_left hle]
      exact Binary64.settled_one
    · rw [max_eq_right hlt.le]
      exact Binary64.settled_roundHalfUp hk (by omega)
  · obtain rfl := Except.ok.inj h
    exact safeBars_of_settled le_rfl Binary64.settled_one

/-- A number of bars is one of the numbers itself. -/
theorem safeBars_representable {x : Binary64} {n : Int} (h : safeBars x = .ok n) :
    ∃ m : Nat, n = m ∧ 1 ≤ m ∧ Representable (m * unitsPerOne) := by
  have hone : Representable (1 * unitsPerOne) :=
    (precise_mul_unitsPerOne (by decide)).representable (by decide +kernel)
  unfold safeBars at h
  split at h
  · obtain ⟨k, hk, he⟩ := bind_eq_ok.mp h
    obtain rfl := pure_eq_ok.mp he
    rcases le_or_gt k 1 with hle | hlt
    · rw [max_eq_left hle]
      exact ⟨1, rfl, le_rfl, hone⟩
    · obtain ⟨u, hu, rfl⟩ := Binary64.eq_halfUp_of_roundHalfUp hk (by omega)
      exact ⟨halfUp u, max_eq_right hlt.le, by omega, Binary64.representable_halfUp hu⟩
  · obtain rfl := Except.ok.inj h
    exact ⟨1, rfl, le_rfl, hone⟩

end PatternLoom
