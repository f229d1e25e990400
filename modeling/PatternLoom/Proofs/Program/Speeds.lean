import Mathlib
import PatternLoom.Proofs.Binary64.Order
import PatternLoom.Proofs.Decimal.Compact
import PatternLoom.Proofs.Program.Gains

/-! Speeds and swings as they are printed. A number above zero snaps to the nearest step, which is
zero for what is below half a step; from there on it is printed as a number above zero. -/

namespace PatternLoom

namespace Binary64

/-- No number lies between a number and the next one above it. -/
theorem le_of_lt_next {u v : Nat} (hu : Representable u) (hv : Representable v)
    (h : v < u + spacing u) : v ≤ u := by
  by_contra hlt
  have hle : u ≤ v := by omega
  have hdvd : spacing u ∣ v := (spacing_dvd_spacing (log2_mono hle)).trans hv.precise
  have hgap : spacing u ∣ v - u := Nat.dvd_sub hdvd hu.precise
  have hspacing := Nat.le_of_dvd (by omega) hgap
  omega

theorem isAmount_of_pos {x : Binary64} (hx : x.isFinite) (hpos : 0 < x) : x.IsAmount :=
  ⟨unsigned_zero.of_lt hpos, hx⟩

/-- A step that is printed as a number above zero, with the least number that snaps to it and the
number right below that. -/
structure IsGrid (step least below : Binary64) : Prop where
  step_isAmount : step.IsAmount ∧ 0 < step
  step_le : step ≤ 1
  shown : Decimal.scaled 3 step.units.natAbs ≠ 0
  least_isAmount : least.IsAmount ∧ 0 < least
  below_isAmount : below.IsAmount
  next : least.units = below.units + spacing below.units.natAbs
  least_counts : (least / step).roundHalfUp = .ok 1
  below_counts : (below / step).roundHalfUp = .ok 0
  zero_counts : (0 / step).roundHalfUp = .ok 0

section Grid

variable {step least below x y : Binary64} {k : Int}

theorem IsGrid.count_pos (hgrid : IsGrid step least below) (hx : x.isFinite) (hle : least ≤ x)
    (hk : (x / step).roundHalfUp = .ok k) : 1 ≤ k := by
  obtain ⟨hleast, hpos⟩ := hgrid.least_isAmount
  have hvalue := (le_iff_value hleast.2 hx).mp hle
  have hxpos : 0 < x := by
    rw [lt_iff_value isFinite_zero hleast.2] at hpos
    exact (lt_iff_value isFinite_zero hx).mpr (hpos.trans_le hvalue)
  have hamount := isAmount_of_pos hx hxpos
  have hbetween : Between least x x := ⟨hleast, hamount, hamount, hvalue, le_rfl⟩
  obtain ⟨k', hk', hone, -⟩ := hbetween.roundHalfUp_div hgrid.step_isAmount hgrid.least_counts hk
  obtain rfl := Except.ok.inj (hk.symm.trans hk')
  exact hone

theorem IsGrid.le_below (hgrid : IsGrid step least below) (hx : x.IsAmount) (hlt : ¬ least ≤ x) :
    x.value ≤ below.value := by
  obtain ⟨u, hu, rfl⟩ := hx.1.exists_magnitude hx.2
  obtain ⟨v, hv, rfl⟩ := hgrid.below_isAmount.1.exists_magnitude hgrid.below_isAmount.2
  rw [le_iff_units hgrid.least_isAmount.1.2 rfl, hgrid.next, not_le] at hlt
  have hnext : (u : Int) < v + (spacing v : Nat) := hlt
  have hle : u ≤ v := le_of_lt_next hv hu (by exact_mod_cast hnext)
  have hunits : (finite false u hu).units ≤ (finite false v hv).units := Int.ofNat_le.mpr hle
  exact (units_le_iff rfl rfl).mp hunits

theorem IsGrid.count_zero (hgrid : IsGrid step least below) (hx : x.isFinite) (hpos : 0 < x)
    (hlt : ¬ least ≤ x) (hk : (x / step).roundHalfUp = .ok k) : k = 0 := by
  have hamount := isAmount_of_pos hx hpos
  have hzero : (0 : Binary64).IsAmount := ⟨unsigned_zero, isFinite_zero⟩
  have hlow := ((lt_iff_value isFinite_zero hx).mp hpos).le
  have hbetween : Between 0 below x :=
    ⟨hzero, hgrid.below_isAmount, hamount, hlow, hgrid.le_below hamount hlt⟩
  obtain ⟨k', hk', hlow, hhigh⟩ :=
    hbetween.roundHalfUp_div hgrid.step_isAmount hgrid.zero_counts hgrid.below_counts
  obtain rfl := Except.ok.inj (hk.symm.trans hk')
  omega

theorem onGrid_eq_ok (hx : x.isFinite) (hstep : step.IsAmount ∧ 0 < step)
    (h : x.onGrid step = .ok y) :
    ∃ k z, (x / step).roundHalfUp = .ok k ∧ ofInt k = .ok z ∧ y = z * step := by
  have hnot : ¬ step ≤ 0 := (pos_iff hstep.1.2).mp hstep.2
  have hgrid : (!x.isFinite || decide (step ≤ 0)) = false := by simp [hx, hnot]
  rw [onGrid, hgrid, if_neg Bool.false_ne_true] at h
  obtain ⟨k, hk, h⟩ := bind_eq_ok.mp h
  obtain ⟨z, hz, h⟩ := bind_eq_ok.mp h
  exact ⟨k, z, hk, hz, (pure_eq_ok.mp h).symm⟩

/-- Some steps are at least one. -/
theorem IsGrid.step_le_mul (hgrid : IsGrid step least below) {n : Nat} {z : Binary64} (hn : 1 ≤ n)
    (hz : ofInt n = .ok z) : (z * step).IsAmount ∧ step.value ≤ (z * step).value := by
  obtain ⟨hstep, -⟩ := hgrid.step_isAmount
  have hround := isRounding_ofInt hz
  have hzamount : z.IsAmount := ⟨hround.unsigned, isFinite_of_ofInt hz⟩
  have hone : (1 : ℚ) ≤ z.value := by
    have hself := isRounding_self unsigned_one (by decide +kernel)
    rw [← value_one]
    refine hself.mono hround (by decide +kernel) hzamount.2 ?_
    rw [value_one]
    exact_mod_cast hn
  have hstep0 : 0 ≤ step.value := hstep.1.value_nonneg
  have hstep1 : step.value ≤ 1 := by
    rw [← value_one]
    exact (le_iff_value hstep.2 (by decide +kernel)).mp hgrid.step_le
  have hproduct := hzamount.isRounding_mul hstep
  have hfinite : (z * step).isFinite :=
    hproduct.isFinite_of_le (isRounding_self hzamount.1 hzamount.2)
      (mul_le_of_le_one_right (zero_le_one.trans hone) hstep1) hzamount.2
  refine ⟨⟨hproduct.unsigned, hfinite⟩, ?_⟩
  exact (isRounding_self hstep.1 hstep.2).mono hproduct hstep.2 hfinite
    (le_mul_of_one_le_left hstep0 hone)

end Grid

end Binary64

section Printing

open Binary64 (IsGrid)

variable {step least below x y : Binary64}

theorem Binary64.IsAmount.units_nonneg (hx : x.IsAmount) : 0 ≤ x.units := by
  obtain ⟨u, hu, rfl⟩ := hx.1.exists_magnitude hx.2
  exact Int.natCast_nonneg u

/-- No steps are printed as zero. -/
theorem compact_none {z : Binary64} (hstep : step.IsAmount) (hz : Binary64.ofInt 0 = .ok z) :
    Decimal.compact (z * step) = "0" := by
  obtain ⟨u, hu, rfl⟩ := hstep.1.exists_magnitude hstep.2
  have hzero : Binary64.ofInt 0 = .ok (.zero false) := by decide +kernel
  obtain rfl := Except.ok.inj (hzero.symm.trans hz)
  rw [Binary64.zero, Binary64.mul_finite, Nat.zero_mul]
  decide +kernel

theorem spellsPositive_compact (hy : y.IsAmount) (h : Decimal.scaled 3 y.units.natAbs ≠ 0) :
    SpellsPositive (Decimal.compact y) := by
  obtain ⟨u, hu, rfl⟩ := hy.1.exists_magnitude hy.2
  obtain ⟨x, hx, hpos⟩ := Decimal.zero_lt_readNumber_compact hu
  exact ⟨x, hx, hpos.mpr h⟩

/-- How a number above zero is printed in steps. -/
structure PrintsFrom (least x : Binary64) (printed : String) : Prop where
  shown : least ≤ x → SpellsPositive printed
  hidden : ¬ least ≤ x → printed = "0"

theorem printsFrom_onGrid (hgrid : IsGrid step least below) (hx : x.isFinite) (hpos : 0 < x)
    (h : x.onGrid step = .ok y) : PrintsFrom least x (Decimal.compact y) := by
  obtain ⟨k, z, hk, hz, rfl⟩ := Binary64.onGrid_eq_ok hx hgrid.step_isAmount h
  constructor
  · intro hle
    have hone := hgrid.count_pos hx hle hk
    obtain ⟨n, rfl⟩ := Int.eq_ofNat_of_zero_le (zero_le_one.trans hone)
    obtain ⟨hamount, hstep⟩ := hgrid.step_le_mul (by exact_mod_cast hone) hz
    refine spellsPositive_compact hamount fun hnone => hgrid.shown (Nat.le_zero.mp ?_)
    rw [← hnone]
    refine Decimal.scaled_mono 3 ?_
    rw [← Binary64.units_le_iff hgrid.step_isAmount.1.2 hamount.2] at hstep
    have hnonneg := hgrid.step_isAmount.1.units_nonneg
    omega
  · intro hlt
    obtain rfl := hgrid.count_zero hx hpos hlt hk
    exact compact_none hgrid.step_isAmount.1 hz

/-- The least speeds and the least swing that are not printed as zero. Each is half a step, but the
number right below half a step of the slow ones also gives one when a half is added to its steps. -/
def leastSlow : Binary64 := 0.12499999999999999
def leastFast : Binary64 := 0.01
def leastSwing : Binary64 := 0.01

theorem slow_isGrid : IsGrid slowStep leastSlow 0.12499999999999997 := by
  constructor <;> decide +kernel

theorem fast_isGrid : IsGrid fastStep leastFast 0.009999999999999998 := by
  constructor <;> decide +kernel

theorem swing_isGrid : IsGrid Groove.swingStep leastSwing 0.009999999999999998 := fast_isGrid

/-- The call of a speed: none without a speed, and else a number. -/
def IsSpeedCall (name : String) (least : Binary64) (speed : Option Binary64) (call : String) :
    Prop :=
  match speed with
  | none => call = ""
  | some x => ∃ printed, call = "." ++ name ++ "(" ++ printed ++ ")" ∧ PrintsFrom least x printed

/-- The call of a groove on a layer, for a swing from the least one on. -/
def IsSwingCall (layer : Layer) (groove : Option Groove) (call : String) : Prop :=
  match groove with
  | none => call = ""
  | some g =>
    if g.appliesTo layer then ∃ printed slots : String,
      call = ".swingBy(" ++ printed ++ ", " ++ slots ++ ")" ∧
        (leastSwing ≤ g.swing → SpellsPositive printed)
    else call = ""

theorem optionalCall_isSpeedCall {name call : String} {speed : Option Binary64}
    (hgrid : IsGrid step least below) (hspeed : ∀ x ∈ speed, x.isFinite ∧ 0 < x)
    (h : optionalCall name step speed = .ok call) : IsSpeedCall name least speed call := by
  cases speed with
  | none => exact (Except.ok.inj h).symm
  | some x =>
    obtain ⟨hx, hpos⟩ := hspeed x rfl
    obtain ⟨y, hy, hcall⟩ := bind_eq_ok.mp h
    exact ⟨_, (pure_eq_ok.mp hcall).symm, printsFrom_onGrid hgrid hx hpos hy⟩

theorem groove_call {g : Groove} {layer : Layer} {call : String} (happlies : g.appliesTo layer)
    (h : g.call = .ok call) : IsSwingCall layer (some g) call := by
  have hactive : g.isActive := (Bool.and_eq_true_iff.mp happlies).1
  have hswing : g.swing.isFinite ∧ 0 < g.swing := by simpa [Groove.isActive] using hactive
  obtain ⟨amount, hamount, h⟩ := bind_eq_ok.mp h
  obtain ⟨slots, -, h⟩ := bind_eq_ok.mp h
  have hprints := printsFrom_onGrid swing_isGrid hswing.1 hswing.2 hamount
  rw [IsSwingCall, if_pos happlies]
  exact ⟨Decimal.compact amount, toString slots, (pure_eq_ok.mp h).symm, hprints.shown⟩

end Printing

/-- In the expression of a layer a speed above zero is printed as a number above zero exactly from
the least one on, and the swing of a groove that applies is from its least one on. -/
theorem Layer.expression_speeds {layer : Layer} {pattern text : String} {levels : Levels}
    {adjustments : Adjustments} (hslow : ∀ x ∈ levels.slow, x.isFinite ∧ 0 < x)
    (hfast : ∀ x ∈ levels.fast, x.isFinite ∧ 0 < x)
    (h : layer.expression pattern levels adjustments = .ok text) :
    ∃ gain slowCall fastCall swingCall,
      text = layer.source pattern ++ (".gain(" ++ gain ++ ")") ++ slowCall ++ fastCall ++
        swingCall ∧
      IsSpeedCall "slow" leastSlow levels.slow slowCall ∧
      IsSpeedCall "fast" leastFast levels.fast fastCall ∧
      IsSwingCall layer adjustments.groove swingCall := by
  simp only [Layer.expression, bind_eq_ok] at h
  obtain ⟨gainCall, hgain, slowCall, hslowCall, fastCall, hfastCall, h⟩ := h
  obtain ⟨gain, -, hgain⟩ := bind_eq_ok.mp hgain
  obtain rfl := pure_eq_ok.mp hgain
  have hslowCall := optionalCall_isSpeedCall slow_isGrid hslow hslowCall
  have hfastCall := optionalCall_isSpeedCall fast_isGrid hfast hfastCall
  split at h
  · rename_i g hgroove
    split at h
    · rename_i happlies
      obtain ⟨swingCall, hswing, h⟩ := bind_eq_ok.mp h
      exact ⟨_, slowCall, fastCall, swingCall, (pure_eq_ok.mp h).symm, hslowCall, hfastCall,
        hgroove ▸ groove_call happlies hswing⟩
    · rename_i hidle
      refine ⟨_, slowCall, fastCall, "", (pure_eq_ok.mp h).symm, hslowCall, hfastCall, ?_⟩
      rw [hgroove, IsSwingCall, if_neg hidle]
  · rename_i hgroove
    exact ⟨_, slowCall, fastCall, "", (pure_eq_ok.mp h).symm, hslowCall, hfastCall,
      hgroove ▸ rfl⟩

/-- A pad that sets no levels of its own. -/
def pad : Layer := { id := "pad", kind := .texture, patterns := [] }

/-- A pad that is slowed down and swings. -/
theorem pad_speeds : ∃ text,
    pad.expression "x" { slow := some 4, fast := some 0.5 }
      { groove := some { swing := 0.2, layers := some ["pad"] } } = .ok text ∧
    ∃ gain slowCall fastCall swingCall,
      text = pad.source "x" ++ (".gain(" ++ gain ++ ")") ++ slowCall ++ fastCall ++ swingCall ∧
      IsSpeedCall "slow" leastSlow (some 4) slowCall ∧
      IsSpeedCall "fast" leastFast (some 0.5) fastCall ∧
      IsSwingCall pad (some { swing := 0.2, layers := some ["pad"] }) swingCall := by
  have hslow : ∀ x ∈ some (4 : Binary64), x.isFinite ∧ 0 < x := by decide +kernel
  have hfast : ∀ x ∈ some (0.5 : Binary64), x.isFinite ∧ 0 < x := by decide +kernel
  obtain ⟨text, htext⟩ := eq_ok_of_isOk (x := pad.expression "x"
    { slow := some 4, fast := some 0.5 }
    { groove := some { swing := 0.2, layers := some ["pad"] } }) (by decide +kernel)
  exact ⟨text, htext, Layer.expression_speeds hslow hfast htext⟩

/-- A slow of a tenth snaps to none. -/
theorem pad_slow_stops : (0.1 : Binary64).isFinite ∧ (0 : Binary64) < 0.1 ∧
    pad.expression "x" { slow := some 0.1 } {} = .ok "s(\"x\").gain(0.7).slow(0)" ∧
    ¬ SpellsPositive "0" := by
  refine ⟨by decide +kernel, by decide +kernel, ?_, by decide +kernel⟩
  decide +kernel

end PatternLoom
