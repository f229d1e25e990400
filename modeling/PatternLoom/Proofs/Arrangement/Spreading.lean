import Mathlib
import PatternLoom.Arrangement
import PatternLoom.Proofs.Binary64.HalfUp

/-! How the sections of an arrangement are spread over the phases. A share of small counts is so far
from the middle between two integers, unless it is that middle, that the quotient is rounded as the
exact share would be. So the first section is on the first phase and the last one on the last phase;
between them no section goes back, and none skips a phase unless the sections are too few. -/

namespace PatternLoom

/-- The integer nearest to `i` parts of `d` in `m`, a half going up. -/
def nearestShare (d m i : Nat) : Nat := (2 * (i * m) + d) / (2 * d)

section Shares

variable {d m i j : Nat}

theorem nearestShare_zero (hd : 0 < d) : nearestShare d m 0 = 0 := by
  rw [nearestShare, Nat.zero_mul, Nat.mul_zero, Nat.zero_add]
  exact Nat.div_eq_of_lt (by omega)

theorem nearestShare_self (hd : 0 < d) : nearestShare d m d = m := by
  rw [nearestShare, ← Nat.mul_assoc, Nat.mul_add_div (by omega), Nat.div_eq_of_lt (by omega),
    Nat.add_zero]

theorem nearestShare_mono (h : i ≤ j) : nearestShare d m i ≤ nearestShare d m j := by
  have hparts := Nat.mul_le_mul_right m h
  exact Nat.div_le_div_right (by omega)

theorem nearestShare_le (hd : 0 < d) (h : i ≤ d) : nearestShare d m i ≤ m :=
  (nearestShare_mono h).trans_eq (nearestShare_self hd)

theorem nearestShare_add_one (hd : 0 < d) (i : Nat) :
    nearestShare d m i + 1 = (2 * (i * m) + d + 2 * d) / (2 * d) :=
  (Nat.add_div_right _ (Nat.mul_pos two_pos hd)).symm

theorem nearestShare_succ (d m i : Nat) :
    nearestShare d m (i + 1) = (2 * (i * m) + d + 2 * m) / (2 * d) := by
  have hnext : 2 * ((i + 1) * m) + d = 2 * (i * m) + d + 2 * m := by ring
  rw [nearestShare, hnext]

theorem nearestShare_lt (hd : 0 < d) (h : d ≤ m) (hij : i < j) :
    nearestShare d m i < nearestShare d m j := by
  refine lt_of_lt_of_le ?_ (nearestShare_mono hij)
  rw [← Nat.succ_le_iff, Nat.succ_eq_add_one, nearestShare_add_one hd, nearestShare_succ]
  exact Nat.div_le_div_right (by omega)

theorem nearestShare_succ_le (hd : 0 < d) (h : m ≤ d) (i : Nat) :
    nearestShare d m (i + 1) ≤ nearestShare d m i + 1 := by
  rw [nearestShare_add_one hd, nearestShare_succ]
  exact Nat.div_le_div_right (by omega)

/-- Where the shares grow by one at most, every count up to the whole is one of them. -/
theorem exists_nearestShare (hd : 0 < d) (h : m ≤ d) {k : Nat} (hk : k ≤ m) :
    ∃ i ≤ d, nearestShare d m i = k := by
  have hreached : ∃ i, k ≤ nearestShare d m i := ⟨d, hk.trans_eq (nearestShare_self hd).symm⟩
  refine ⟨Nat.find hreached, Nat.find_min' hreached (hk.trans_eq (nearestShare_self hd).symm), ?_⟩
  have hle := Nat.find_spec hreached
  cases hfirst : Nat.find hreached with
  | zero =>
    rw [hfirst, nearestShare_zero hd] at hle
    rw [nearestShare_zero hd]
    omega
  | succ i =>
    have hbefore := Nat.find_min hreached (show i < Nat.find hreached by omega)
    have hstep := nearestShare_succ_le hd h i
    rw [hfirst] at hle
    omega

end Shares

section Rounding

open Binary64

variable {z : Binary64} {a d k : Nat}

/-- Half a part of the denominator before the next middle a quotient stays after rounding, and never
comes to where one half too much is added. -/
theorem bounds_of_isRounding (h : IsRounding z (a / d)) (hd : 0 < d) (hd' : d ≤ 2 ^ 20)
    (hk : k ≤ 2 ^ 20) (hlow : 2 * (k * d) ≤ 2 * a + d) (hhigh : 2 * a < 2 * (k * d) + d) :
    z.isFinite ∧ k - 1 / 2 ≤ z.value ∧ z.value ≤ k + 1 / 2 - 1 / 2 ^ 21 := by
  have hdq : (0 : ℚ) < d := Nat.cast_pos.mpr hd
  have hdq' : (d : ℚ) ≤ 2 ^ 20 := by exact_mod_cast hd'
  have hlowq : 2 * ((k : ℚ) * d) ≤ 2 * a + d := by exact_mod_cast hlow
  have hhighq : 2 * (a : ℚ) + 1 ≤ 2 * (k * d) + d := by exact_mod_cast hhigh
  have htop : (((2 * k + 1) * 2 ^ 20 - 1 : Nat) : ℚ) / 2 ^ 21 = k + 1 / 2 - 1 / 2 ^ 21 := by
    rw [Nat.cast_sub (by omega)]
    push_cast
    ring
  have hle : (a : ℚ) / d ≤ ((2 * k + 1) * 2 ^ 20 - 1 : Nat) / 2 ^ 21 := by
    rw [htop, div_le_iff₀ hdq]
    linarith
  obtain ⟨hfinite, hupper⟩ := h.le_two_pow hle (by omega) (by decide)
  refine ⟨hfinite, ?_, hupper.trans_eq htop⟩
  cases k with
  | zero =>
    have hnonneg := h.unsigned.value_nonneg
    rw [Nat.cast_zero]
    linarith
  | succ k =>
    have hbottom : (((2 * k + 1 : Nat) : ℚ)) / 2 ^ 1 = ((k + 1 : Nat) : ℚ) - 1 / 2 := by
      push_cast
      ring
    rw [← hbottom]
    refine h.two_pow_le hfinite ?_ (by omega) (by decide)
    rw [hbottom, le_div_iff₀ hdq]
    linarith

theorem not_overshoots_of_bounds (hk : k ≤ 2 ^ 20) (hlow : k - 1 / 2 ≤ z.value)
    (hhigh : z.value ≤ k + 1 / 2 - 1 / 2 ^ 21) : ¬ z.Overshoots := by
  have hkq : (k : ℚ) ≤ 2 ^ 20 := by exact_mod_cast hk
  rintro (hlast | ⟨n, ⟨-, hfar, -⟩, hn⟩)
  · cases k with
    | zero =>
      norm_num [hlast] at hhigh
    | succ k =>
      have hnonneg : (0 : ℚ) ≤ k := Nat.cast_nonneg k
      rw [hlast] at hlow
      push_cast at hlow
      norm_num at hlow
      linarith
  · have hnonneg : (0 : ℚ) ≤ k := Nat.cast_nonneg k
    have hbelow : (n : ℚ) < 2 ^ 52 := by
      rw [← hn]
      linarith
    have habove : -2 ^ 52 < (n : ℚ) := by
      rw [← hn]
      linarith
    exact hfar.not_gt (abs_lt.mpr ⟨by exact_mod_cast habove, by exact_mod_cast hbelow⟩)

/-- A quotient by a small count is rounded to the integer nearest to the exact one. -/
theorem roundHalfUp_of_isRounding (h : IsRounding z (a / d)) (hd : 0 < d) (hd' : d ≤ 2 ^ 20)
    (ha : a ≤ 2 ^ 20 * d) : z.roundHalfUp = .ok ((2 * a + d) / (2 * d) : Nat) := by
  have hpos : 0 < 2 * d := Nat.mul_pos two_pos hd
  have hk : (2 * a + d) / (2 * d) ≤ 2 ^ 20 := by
    rw [← Nat.lt_succ_iff, Nat.div_lt_iff_lt_mul hpos]
    omega
  have hfloor := Nat.div_mul_le_self (2 * a + d) (2 * d)
  have hceil := Nat.lt_div_mul_add hpos (a := 2 * a + d)
  generalize (2 * a + d) / (2 * d) = k at hk hfloor hceil ⊢
  rw [Nat.mul_left_comm] at hfloor hceil
  obtain ⟨hfinite, hlow, hhigh⟩ := bounds_of_isRounding h hd hd' hk hfloor (by omega)
  rw [roundHalfUp_eq_ok_iff hfinite (not_overshoots_of_bounds hk hlow hhigh), Int.cast_natCast]
  exact ⟨hlow, hhigh.trans_lt (by norm_num)⟩

end Rounding

theorem Binary64.exists_ofQuotient {a d : Nat} (hd : 0 < d) (ha : a ≤ 2 ^ 110) :
    ∃ z, ofQuotient a d = .ok z ∧ IsRounding z (a / d) := by
  have hrange : (a : Int).natAbs * unitsPerOne < overflow * (d : Int).natAbs := by
    rw [Int.natAbs_natCast, Int.natAbs_natCast]
    calc a * unitsPerOne
        ≤ 2 ^ 110 * unitsPerOne := Nat.mul_le_mul_right _ ha
      _ < overflow := two_pow_mul_unitsPerOne_lt
      _ ≤ overflow * d := Nat.le_mul_of_pos_right _ hd
  obtain ⟨z, hz, -, -⟩ := ofQuotient_eq_ok (by omega) hrange
  exact ⟨z, hz, isRounding_ofQuotient hd hz⟩

/-- The section at a place is on the phase that is its share of the phases. -/
theorem focusPhaseIndex_eq {d m i : Nat} (hd : 0 < d) (hd' : d ≤ 2 ^ 20) (hm : m ≤ 2 ^ 20)
    (hi : i ≤ d) : focusPhaseIndex i (d + 1 : Nat) (m + 1 : Nat) = .ok (nearestShare d m i : Nat) := by
  unfold focusPhaseIndex
  split
  · rename_i hfew
    obtain rfl : m = 0 := by omega
    rw [nearestShare, Nat.mul_zero, Nat.mul_zero, Nat.zero_add, Nat.div_eq_of_lt (by omega)]
    rfl
  · have hparts : (i : Int) * (((m + 1 : Nat) : Int) - 1) = (i * m : Nat) := by
      push_cast
      ring
    have hcount : ((d + 1 : Nat) : Int) - 1 = (d : Nat) := by
      push_cast
      ring
    have hsmall : i * m ≤ d * 2 ^ 20 := Nat.mul_le_mul hi hm
    obtain ⟨z, hz, hround⟩ := Binary64.exists_ofQuotient hd (show i * m ≤ 2 ^ 110 by omega)
    rw [hparts, hcount, hz]
    exact roundHalfUp_of_isRounding hround hd hd' (by omega)

/-- Indices for the sections of an arrangement that spread them over the phases: all phases exist,
the first and the last are those of the first and the last section, and the order is kept. None is
given twice if there are enough phases, and none is left out if there are enough sections. -/
structure Spreads (sections phases : Int) (index : Int → Int) : Prop where
  mapsTo : Set.MapsTo index (Set.Ico 0 sections) (Set.Icc 0 (phases - 1))
  first : index 0 = 0
  last : index (sections - 1) = phases - 1
  monotoneOn : MonotoneOn index (Set.Ico 0 sections)
  strictMonoOn : sections ≤ phases → StrictMonoOn index (Set.Ico 0 sections)
  surjOn : phases ≤ sections → Set.SurjOn index (Set.Ico 0 sections) (Set.Icc 0 (phases - 1))

theorem nearestShare_spreads {d m : Nat} (hd : 0 < d) :
    Spreads (d + 1 : Nat) (m + 1 : Nat) fun i => nearestShare d m i.toNat where
  mapsTo := by
    rintro i ⟨hlow, hhigh⟩
    have hle := nearestShare_le hd (m := m) (show i.toNat ≤ d by omega)
    exact ⟨by positivity, by push_cast; omega⟩
  first := congrArg Nat.cast (nearestShare_zero hd)
  last := by
    have hlast : (((d + 1 : Nat) : Int) - 1).toNat = d := by omega
    rw [hlast, nearestShare_self hd]
    push_cast
    ring
  monotoneOn := by
    intro i _ j _ hij
    exact Int.ofNat_le.mpr (nearestShare_mono (Int.toNat_le_toNat hij))
  strictMonoOn := by
    rintro hle i ⟨hi, -⟩ j _ hij
    exact Int.ofNat_lt.mpr (nearestShare_lt hd (by omega) (by omega))
  surjOn := by
    rintro hle k ⟨hlow, hhigh⟩
    obtain ⟨i, hi, hshare⟩ := exists_nearestShare hd (m := m) (by omega)
      (show k.toNat ≤ m by omega)
    refine ⟨i, ⟨by omega, by omega⟩, ?_⟩
    change (nearestShare d m (i : Int).toNat : Int) = k
    rw [Int.toNat_natCast, hshare]
    omega

theorem RuleSet.phaseAt_eq_ok {rules : RuleSet} {k : Nat} (h : k < rules.phases.length) :
    rules.phaseAt k = .ok rules.phases[k] := by
  have hnth : nth rules.phases k = some rules.phases[k] := by
    rw [nth, if_neg (by omega), if_neg (by omega), Int.toNat_natCast, List.getElem?_eq_getElem h]
  rw [phaseAt, hnth]

/-- The sections of an arrangement are spread over the phases of any rules that have so many: each
section finds its phase, and no phase is left out if there are enough sections. -/
theorem focusPhaseIndex_spreads {sections phases : Int} (hsections : 2 ≤ sections ∧ sections ≤ 2 ^ 20)
    (hphases : 1 ≤ phases ∧ phases ≤ 2 ^ 20) : ∃ index, Spreads sections phases index ∧
      (∀ i ∈ Set.Ico 0 sections, focusPhaseIndex i sections phases = .ok (index i)) ∧
      ∀ rules : RuleSet, rules.phases.length = phases →
        (∀ i ∈ Set.Ico 0 sections, ∃ phase ∈ rules.phases, rules.phaseAt (index i) = .ok phase) ∧
        (phases ≤ sections → ∀ phase ∈ rules.phases, ∃ i ∈ Set.Ico 0 sections,
          rules.phaseAt (index i) = .ok phase) := by
  obtain ⟨d, rfl⟩ : ∃ d : Nat, sections = (d + 1 : Nat) := ⟨(sections - 1).toNat, by omega⟩
  obtain ⟨m, rfl⟩ : ∃ m : Nat, phases = (m + 1 : Nat) := ⟨(phases - 1).toNat, by omega⟩
  have hspreads := nearestShare_spreads (m := m) (show 0 < d by omega)
  refine ⟨_, hspreads, ?_, fun rules hcount => ⟨?_, fun hle phase hphase => ?_⟩⟩
  · rintro i ⟨hlow, hhigh⟩
    obtain ⟨n, rfl⟩ := Int.eq_ofNat_of_zero_le hlow
    exact focusPhaseIndex_eq (by omega) (by omega) (by omega) (by omega)
  · rintro i ⟨-, hhigh⟩
    have hle := nearestShare_le (m := m) (show 0 < d by omega) (show i.toNat ≤ d by omega)
    have hlt : nearestShare d m i.toNat < rules.phases.length := by omega
    exact ⟨_, List.getElem_mem hlt, RuleSet.phaseAt_eq_ok hlt⟩
  · obtain ⟨k, hk, rfl⟩ := List.mem_iff_getElem.mp hphase
    obtain ⟨i, hi, hindex⟩ := hspreads.surjOn hle (show (k : Int) ∈ _ from ⟨by omega, by omega⟩)
    exact ⟨i, hi, (congrArg rules.phaseAt hindex).trans (RuleSet.phaseAt_eq_ok hk)⟩

theorem fiveSections_spread : (2 ≤ (5 : Int) ∧ (5 : Int) ≤ 2 ^ 20) ∧
    (1 ≤ (13 : Int) ∧ (13 : Int) ≤ 2 ^ 20) ∧ ∃ index, Spreads 5 13 index ∧
      (∀ i ∈ Set.Ico 0 5, focusPhaseIndex i 5 13 = .ok (index i)) := by
  have hsections : 2 ≤ (5 : Int) ∧ (5 : Int) ≤ 2 ^ 20 := by decide
  have hphases : 1 ≤ (13 : Int) ∧ (13 : Int) ≤ 2 ^ 20 := by decide
  obtain ⟨index, hspreads, hindex, -⟩ := focusPhaseIndex_spreads hsections hphases
  exact ⟨hsections, hphases, index, hspreads, hindex⟩

end PatternLoom
