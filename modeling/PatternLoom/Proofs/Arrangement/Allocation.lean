import Mathlib
import PatternLoom.Arrangement
import PatternLoom.Proofs.Binary64.Range
import PatternLoom.Proofs.Result

/-! The bars of an arrangement divided among its sections. Bars too many are taken from the
largest shares, which lie above the minimum and end level, and missing ones go to the last share, so
the shares fit the total. -/

namespace PatternLoom

/-- Shares of a total, none below the minimum. -/
structure Fills (total minimum : Int) (shares : List Int) : Prop where
  sum_eq : shares.sum = total
  le : ∀ bars ∈ shares, minimum ≤ bars

section Trimming

variable {total minimum : Int} {shares : List Int}

theorem trimLargest_eq (hne : shares ≠ []) :
    ∃ before largest after, shares = before ++ largest :: after ∧ (∀ bars ∈ shares, bars ≤ largest) ∧
      trimLargest shares = before ++ (largest - 1) :: after := by
  cases shares with
  | nil => exact absurd rfl hne
  | cons x xs =>
    obtain ⟨hmem, hmax⟩ := List.max?_eq_some_iff.mp (@List.max?_cons' _ x _ xs)
    obtain ⟨before, after, hsplit, hfirst⟩ := List.eq_append_cons_of_mem hmem
    refine ⟨before, _, after, hsplit, hmax, ?_⟩
    rw [trimLargest, hsplit, List.idxOf_append_of_notMem hfirst, List.idxOf_cons_self,
      List.set_append_right _ _ (Nat.le_add_right _ _), Nat.add_sub_cancel_left, List.set_cons_zero]

theorem trimLargest_fills (h : Fills (total + 1) minimum shares)
    (hroom : minimum * shares.length ≤ total) :
    Fills total minimum (trimLargest shares) ∧ (trimLargest shares).length = shares.length := by
  have hne : shares ≠ [] := by
    rintro rfl
    have hsum := h.sum_eq
    simp only [List.sum_nil, List.length_nil] at hsum hroom
    omega
  obtain ⟨before, largest, after, hsplit, hmax, htrim⟩ := trimLargest_eq hne
  -- If even the largest share were the minimum, the shares would fit into the total.
  have hpos : minimum < largest := by
    by_contra hle
    have hsum := List.sum_le_card_nsmul shares minimum fun y hy => (hmax y hy).trans (not_lt.mp hle)
    rw [h.sum_eq, nsmul_eq_mul, mul_comm] at hsum
    omega
  obtain ⟨hsum, hle⟩ := h
  rw [htrim]
  subst hsplit
  simp only [List.sum_append, List.sum_cons, List.forall_mem_append, List.forall_mem_cons] at hsum hle
  obtain ⟨hbefore, -, hafter⟩ := hle
  refine ⟨⟨?_, List.forall_mem_append.mpr ⟨hbefore, List.forall_mem_cons.mpr ⟨?_, hafter⟩⟩⟩,
    by simp⟩
  · rw [List.sum_append, List.sum_cons]
    omega
  · omega

theorem trimShares_fills {excess : Nat} (h : Fills (total + excess) minimum shares)
    (hroom : minimum * shares.length ≤ total) :
    Fills total minimum (trimShares shares excess) ∧
      (trimShares shares excess).length = shares.length := by
  induction excess generalizing shares with
  | zero =>
    rw [Nat.cast_zero, add_zero] at h
    exact ⟨h, rfl⟩
  | succ excess ih =>
    have hstep : Fills (total + excess + 1) minimum shares := by
      rwa [Nat.cast_succ, ← add_assoc] at h
    obtain ⟨hfills, hlength⟩ := trimLargest_fills hstep (by omega)
    obtain ⟨hrest, hlength'⟩ := ih hfills (by rwa [hlength])
    exact ⟨hrest, hlength'.trans hlength⟩

theorem topUp_concat (before : List Int) (last missing : Int) :
    topUp (before ++ [last]) missing = before ++ [last + missing] := by
  simp [topUp]

theorem topUp_fills {missing : Int} (hne : shares ≠ []) (h : Fills (total - missing) minimum shares)
    (hmissing : 0 ≤ missing) :
    Fills total minimum (topUp shares missing) ∧ (topUp shares missing).length = shares.length := by
  obtain ⟨before, last, rfl⟩ : ∃ before last, shares = before ++ [last] :=
    ⟨_, _, (List.dropLast_append_getLast hne).symm⟩
  obtain ⟨hsum, hle⟩ := h
  rw [List.sum_append, List.sum_singleton] at hsum
  obtain ⟨hbefore, hlast⟩ := List.forall_mem_append.mp hle
  rw [topUp_concat]
  refine ⟨⟨?_, List.forall_mem_append.mpr ⟨hbefore, ?_⟩⟩, by simp⟩
  · rw [List.sum_append, List.sum_singleton]
    omega
  · have hmin := hlast last (List.mem_singleton_self last)
    rw [List.forall_mem_singleton]
    omega

end Trimming

theorem roundedShares_le {total minimum : Int} {weights : List Binary64} {shares : List Int}
    (h : roundedShares total weights minimum = .ok shares) :
    shares.length = weights.length ∧ ∀ bars ∈ shares, minimum ≤ bars := by
  have hmatch := mapM_eq_ok.mp h
  refine ⟨hmatch.length_eq.symm, fun bars hbars => ?_⟩
  obtain ⟨w, _, hw⟩ := exists_of_forall₂_right hmatch hbars
  simp only [bind_eq_ok, pure_eq_ok] at hw
  obtain ⟨_, _, _, _, rfl⟩ := hw
  exact le_max_left _ _

section Fitting

variable {total minimum : Int} {weights : List Binary64} {rounded shares : List Int}

theorem allocateBars_eq_ok : allocateBars total weights minimum = .ok shares ↔
    weights ≠ [] ∧ minimum * weights.length ≤ total ∧
      ∃ rounded, roundedShares total weights minimum = .ok rounded ∧
        (if total < rounded.sum then trimShares rounded (rounded.sum - total).toNat
          else topUp rounded (total - rounded.sum)) = shares := by
  unfold allocateBars
  by_cases hempty : weights.isEmpty = true
  · rw [if_pos hempty]
    exact iff_of_false (fun h => by cases h) fun h => h.1 (List.isEmpty_iff.mp hempty)
  by_cases hroom : total < minimum * weights.length
  · rw [if_neg hempty, if_pos hroom]
    exact iff_of_false (fun h => by cases h) fun h => h.2.1.not_gt hroom
  rw [if_neg hempty, if_neg hroom]
  refine bind_eq_ok.trans ?_
  have hne : weights ≠ [] := fun h => hempty (List.isEmpty_iff.mpr h)
  simp only [hne, not_lt.mp hroom, ne_eq, not_false_eq_true, true_and, ← List.sum_eq_foldl, sub_pos,
    neg_sub]
  refine exists_congr fun rounded => and_congr_right fun _ => ?_
  rw [← apply_ite pure]
  exact pure_eq_ok

theorem allocateBars_fills (h : allocateBars total weights minimum = .ok shares) :
    shares.length = weights.length ∧ Fills total minimum shares := by
  obtain ⟨hne, hroom, rounded, hrounded, rfl⟩ := allocateBars_eq_ok.mp h
  obtain ⟨hlength, hle⟩ := roundedShares_le hrounded
  have hroom' : minimum * rounded.length ≤ total := by rwa [hlength]
  split
  · rename_i hexcess
    have hsum : rounded.sum = total + (rounded.sum - total).toNat := by omega
    obtain ⟨hfills, hkept⟩ := trimShares_fills ⟨hsum, hle⟩ hroom'
    exact ⟨hkept.trans hlength, hfills⟩
  · rename_i hexcess
    have hne' : rounded ≠ [] := by
      rintro rfl
      exact hne (List.length_eq_zero_iff.mp hlength.symm)
    have hsum : rounded.sum = total - (total - rounded.sum) := by omega
    obtain ⟨hfills, hkept⟩ := topUp_fills hne' ⟨hsum, hle⟩ (by omega)
    exact ⟨hkept.trans hlength, hfills⟩

end Fitting

section Levelling

variable {total minimum : Int} {weights : List Binary64} {rounded shares : List Int}

/-- Shares that others were lowered to, from the top: one below its own is at most one below each
of the rest. -/
def LoweredTo (rounded shares : List Int) : Prop :=
  List.Forall₂ (fun r s => s ≤ r ∧ (s < r → ∀ bars ∈ shares, bars ≤ s + 1)) rounded shares

theorem LoweredTo.refl (rounded : List Int) : LoweredTo rounded rounded :=
  List.forall₂_same.mpr fun r _ => ⟨le_rfl, fun h => absurd h (lt_irrefl r)⟩

theorem loweredTo_trimLargest (h : LoweredTo rounded shares) :
    LoweredTo rounded (trimLargest shares) := by
  by_cases hne : shares = []
  · subst hne
    exact h
  obtain ⟨before, largest, after, rfl, hmax, htrim⟩ := trimLargest_eq hne
  have hless : ∀ most, (∀ bars ∈ before ++ largest :: after, bars ≤ most) →
      ∀ bars ∈ trimLargest (before ++ largest :: after), bars ≤ most := by
    intro most hmost
    rw [htrim]
    rw [List.forall_mem_append, List.forall_mem_cons] at hmost
    obtain ⟨hbefore, hlargest, hafter⟩ := hmost
    exact List.forall_mem_append.mpr ⟨hbefore, List.forall_mem_cons.mpr ⟨by omega, hafter⟩⟩
  -- What was level stays so, and the largest share comes down next to the others.
  have hkept := h.imp fun r s hrs => And.imp_right (fun hlevel hlt => hless (s + 1) (hlevel hlt)) hrs
  have hbefore := List.forall₂_take_append _ _ _ hkept
  have hafter := List.forall₂_drop_append _ _ _ hkept
  obtain ⟨r, rest, ⟨hr, -⟩, hrest, hdrop⟩ := List.forall₂_cons_right_iff.mp hafter
  rw [LoweredTo, ← List.take_append_drop before.length rounded, hdrop]
  nth_rewrite 2 [htrim]
  refine List.rel_append hbefore (.cons ⟨by omega, fun _ => ?_⟩ hrest)
  rw [sub_add_cancel]
  exact hless largest hmax

theorem loweredTo_trimShares (h : LoweredTo rounded shares) (excess : Nat) :
    LoweredTo rounded (trimShares shares excess) := by
  induction excess generalizing shares with
  | zero => exact h
  | succ excess ih => exact ih (loweredTo_trimLargest h)

/-- A weight's share before the sum is made to fit. -/
def RoundsTo (total minimum : Int) (w : Binary64) (r : Int) : Prop :=
  ∃ length k, Binary64.ofInt total = .ok length ∧ (length * w).roundHalfUp = .ok k ∧ r = max minimum k

theorem roundedShares_eq_ok {length : Binary64} (hlength : Binary64.ofInt total = .ok length)
    (hfinite : ∀ w ∈ weights, (length * w).isFinite) :
    ∃ rounded, roundedShares total weights minimum = .ok rounded ∧
      List.Forall₂ (RoundsTo total minimum) weights rounded := by
  have hround : ∀ w ∈ weights, ∃ r, (do
      return max minimum (← ((← Binary64.ofInt total) * w).roundHalfUp) : Result Int) = .ok r := by
    intro w hw
    obtain ⟨k, hk⟩ := Binary64.roundHalfUp_eq_ok (hfinite w hw)
    exact ⟨max minimum k, bind_eq_ok.mpr ⟨length, hlength, bind_eq_ok.mpr ⟨k, hk, rfl⟩⟩⟩
  obtain ⟨rounded, hrounded⟩ := exists_mapM_eq_ok hround
  refine ⟨rounded, hrounded, (mapM_eq_ok.mp hrounded).imp fun w r hr => ?_⟩
  obtain ⟨length', hlength', hr⟩ := bind_eq_ok.mp hr
  obtain ⟨k, hk, hr⟩ := bind_eq_ok.mp hr
  exact ⟨length', k, hlength', hk, (pure_eq_ok.mp hr).symm⟩

/-- Shares that fit the total. Where the rounded ones leave bars over, these are the last one's, and
where they take too many, the largest ones are lowered to a level. -/
structure Allots (total minimum : Int) (weights : List Binary64) (rounded shares : List Int) :
    Prop where
  rounds : List.Forall₂ (RoundsTo total minimum) weights rounded
  fills : Fills total minimum shares
  length_eq : shares.length = weights.length
  dropLast_eq : rounded.sum ≤ total → shares.dropLast = rounded.dropLast
  lowered : total < rounded.sum → LoweredTo rounded shares

theorem dropLast_topUp (shares : List Int) (missing : Int) :
    (topUp shares missing).dropLast = shares.dropLast := by
  induction shares using List.reverseRecOn with
  | nil => rfl
  | append_singleton before last => rw [topUp_concat, List.dropLast_concat, List.dropLast_concat]

/-- The bars are divided among all weights, unless they are too few for the least share of each. -/
theorem allocateBars_allots (hne : weights ≠ []) :
    (total < minimum * weights.length →
      allocateBars total weights minimum = .error (.tooFewBars total weights.length minimum)) ∧
    (∀ length, Binary64.ofInt total = .ok length → (∀ w ∈ weights, (length * w).isFinite) →
      minimum * weights.length ≤ total →
      ∃ rounded shares, allocateBars total weights minimum = .ok shares ∧
        Allots total minimum weights rounded shares) := by
  constructor
  · intro hfew
    unfold allocateBars
    rw [if_neg fun h => hne (List.isEmpty_iff.mp h), if_pos hfew]
    rfl
  · intro length hlength hfinite hroom
    obtain ⟨rounded, hrounded, hrounds⟩ := roundedShares_eq_ok hlength hfinite
    have hshares := allocateBars_eq_ok.mpr ⟨hne, hroom, rounded, hrounded, rfl⟩
    obtain ⟨hlength, hfills⟩ := allocateBars_fills hshares
    refine ⟨rounded, _, hshares, hrounds, hfills, hlength, fun hfit => ?_, fun hexcess => ?_⟩
    · rw [if_neg hfit.not_gt, dropLast_topUp]
    · rw [if_pos hexcess]
      exact loweredTo_trimShares (.refl rounded) _

/-- Three shares of a half, so in all half as much again as there is. -/
def halves : List Binary64 := [0.5, 0.5, 0.5]

theorem halves_allots : halves ≠ [] ∧
    allocateBars 2 halves 1 = .error (.tooFewBars 2 3 1) ∧
    ∃ rounded shares, allocateBars 8 halves 1 = .ok shares ∧ Allots 8 1 halves rounded shares := by
  have hlength : Binary64.ofInt 8 = .ok 8 := by decide +kernel
  have hfinite : ∀ w ∈ halves, (8 * w : Binary64).isFinite := by decide +kernel
  exact ⟨by decide, (allocateBars_allots (by decide)).1 (by decide),
    (allocateBars_allots (by decide)).2 8 hlength hfinite (by decide)⟩

end Levelling

end PatternLoom
