import Mathlib
import PatternLoom.Program
import PatternLoom.Proofs.Binary64.Between
import PatternLoom.Proofs.Result
import PatternLoom.Decimal.Numeral

/-! Gains as they are printed: in steps of `0.05`, so that whatever is less than half a step is
printed as zero. -/

namespace PatternLoom

open Binary64 (Between IsAmount between_self)

/-- A text that spells a number above zero. -/
def SpellsPositive (text : String) : Prop := ∃ x, Decimal.readNumber text = some x ∧ 0 < x

instance : DecidablePred SpellsPositive := fun text =>
  decidable_of_iff ((Decimal.readNumber text).any (0 < ·))
    (by simp [SpellsPositive, Option.any_eq_true])

example : ¬ SpellsPositive "0" := by decide +kernel

/-- A number of steps of the grid of gains, as a text. -/
def stepsText (k : Nat) : String := Decimal.compact (.ofFraction false k 1 * gainStep)

theorem stepsText_spells : ∀ k ∈ List.range 20, SpellsPositive (stepsText (k + 1)) := by
  decide +kernel

theorem ofInt_steps :
    ∀ k ∈ List.range 21, Binary64.ofInt (k : Int) = .ok (.ofFraction false k 1) := by
  decide +kernel

section Gains

variable {low high g : Binary64}

theorem levelCall_gain (h : Between low high g) {i j : Nat} (hj : j ≤ 20)
    (hlow : (low / gainStep).roundHalfUp = .ok (i : Int))
    (hhigh : (high / gainStep).roundHalfUp = .ok (j : Int)) :
    ∃ k, i ≤ k ∧ k ≤ j ∧ levelCall "gain" gainStep g = .ok (".gain(" ++ stepsText k ++ ")") := by
  have hstep : gainStep.IsAmount ∧ 0 < gainStep := by decide +kernel
  obtain ⟨n, hn, hin, hnj⟩ := h.roundHalfUp_div hstep hlow hhigh
  obtain ⟨k, rfl⟩ := Int.eq_ofNat_of_zero_le ((Int.natCast_nonneg i).trans hin)
  have hk : k ∈ List.range 21 := List.mem_range.mpr (by omega)
  have hgrid : (!g.isFinite || gainStep ≤ 0) = false := by
    have hpositive : ¬ gainStep ≤ 0 := by decide +kernel
    simp [h.isAmount.2, hpositive]
  have hsnapped : g.onGrid gainStep = .ok (.ofFraction false k 1 * gainStep) := by
    rw [Binary64.onGrid, hgrid, if_neg Bool.false_ne_true]
    exact bind_eq_ok.mpr ⟨_, hn, bind_eq_ok.mpr ⟨_, ofInt_steps k hk, rfl⟩⟩
  have hname : "." ++ "gain" ++ "(" = ".gain(" := by decide
  refine ⟨k, by omega, by omega, ?_⟩
  rw [levelCall, hname]
  exact bind_eq_ok.mpr ⟨_, hsnapped, pure_eq_ok.mpr rfl⟩

/-- From half a step on a gain is printed as a number above zero. -/
theorem levelCall_loud (h : Between 0.025 1 g) : ∃ printed, SpellsPositive printed ∧
    levelCall "gain" gainStep g = .ok (".gain(" ++ printed ++ ")") := by
  obtain ⟨k, hlow, hhigh, hcall⟩ := levelCall_gain (i := 1) (j := 20) h le_rfl (by decide +kernel)
    (by decide +kernel)
  obtain ⟨k, rfl⟩ := Nat.exists_eq_add_one.mpr hlow
  exact ⟨_, stepsText_spells k (List.mem_range.mpr (by omega)), hcall⟩

theorem levelCall_faint (h : Between 0 0.024 g) :
    levelCall "gain" gainStep g = .ok (".gain(" ++ "0" ++ ")") := by
  obtain ⟨k, _, hhigh, hcall⟩ := levelCall_gain (i := 0) (j := 0) h (by decide) (by decide +kernel)
    (by decide +kernel)
  obtain rfl := Nat.le_zero.mp hhigh
  have hzero : stepsText 0 = "0" := by decide +kernel
  rw [hzero] at hcall
  exact hcall

end Gains

/-- The call of the gain comes right behind the source. -/
theorem Layer.expression_gain {layer : Layer} {pattern text : String} {levels : Levels}
    {adjustments : Adjustments} {g : Binary64} (hg : levels.gain = some g) (hfinite : g.isFinite)
    (h : layer.expression pattern levels adjustments = .ok text) :
    ∃ gainCall after, levelCall "gain" gainStep g = .ok gainCall ∧
      text = layer.source pattern ++ gainCall ++ after := by
  simp only [Layer.expression, bind_eq_ok, hg, hfinite, if_true] at h
  obtain ⟨gainCall, hgain, slow, _, fast, _, h⟩ := h
  have hafter : ∀ swing : String, layer.source pattern ++ gainCall ++ slow ++ fast ++ swing = text →
      ∃ call after, levelCall "gain" gainStep g = .ok call ∧
        text = layer.source pattern ++ call ++ after := by
    rintro swing rfl
    exact ⟨gainCall, slow ++ (fast ++ swing), hgain, by simp only [String.append_assoc]⟩
  split at h
  · split at h
    · obtain ⟨swing, _, h⟩ := bind_eq_ok.mp h
      exact hafter swing (pure_eq_ok.mp h)
    · exact hafter "" (pure_eq_ok.mp h)
  · exact hafter "" (pure_eq_ok.mp h)

end PatternLoom
