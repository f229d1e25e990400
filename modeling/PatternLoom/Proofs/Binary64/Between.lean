import Mathlib
import PatternLoom.Proofs.Decimal.Rounded

/-! Numbers between bounds. Every operation on amounts keeps their order however it rounds, so what
a formula gives for a parameter lies between what it gives for the bounds of the parameter. -/

namespace PatternLoom
namespace Binary64

/-- Finite and not negative, not even a negative zero. -/
def IsAmount (x : Binary64) : Prop := x.Unsigned ∧ x.isFinite

instance : DecidablePred IsAmount := fun x => by
  unfold IsAmount Unsigned
  infer_instance

/-- An amount between two others. -/
structure Between (low high x : Binary64) : Prop where
  low_isAmount : low.IsAmount
  high_isAmount : high.IsAmount
  isAmount : x.IsAmount
  low_le : low.value ≤ x.value
  le_high : x.value ≤ high.value

section Bounds

variable {a b c d x y : Binary64}

theorem units_le_iff (hx : x.isFinite) (hy : y.isFinite) :
    x.units ≤ y.units ↔ x.value ≤ y.value := by
  rw [← not_lt, ← lt_iff_units hy hx, lt_iff_value hy hx, not_lt]

theorem between_self (hx : x.IsAmount) : Between x x x := ⟨hx, hx, hx, le_rfl, le_rfl⟩

theorem between_of_le (ha : a.IsAmount) (hb : b.IsAmount) (hx : x.isFinite) (hax : a ≤ x)
    (hxb : x ≤ b) (hpos : 0 < a) : Between a b x := by
  have hlow := (le_iff_value ha.2 hx).mp hax
  have hzero : 0 < x := by
    rw [lt_iff_value isFinite_zero hx]
    exact ((lt_iff_value isFinite_zero ha.2).mp hpos).trans_le hlow
  exact ⟨ha, hb, ⟨unsigned_zero.of_lt hzero, hx⟩, hlow, (le_iff_value hx hb.2).mp hxb⟩

theorem Between.widen (h : Between a b x) (hc : c.IsAmount ∧ d.IsAmount) (hle : c ≤ a ∧ b ≤ d) :
    Between c d x :=
  ⟨hc.1, hc.2, h.isAmount, ((le_iff_value hc.1.2 h.low_isAmount.2).mp hle.1).trans h.low_le,
    h.le_high.trans ((le_iff_value h.high_isAmount.2 hc.2.2).mp hle.2)⟩

theorem Between.bounds (h : Between a b x) : x.isFinite ∧ a ≤ x ∧ x ≤ b :=
  ⟨h.isAmount.2, (le_iff_value h.low_isAmount.2 h.isAmount.2).mpr h.low_le,
    (le_iff_value h.isAmount.2 h.high_isAmount.2).mpr h.le_high⟩

theorem Between.lt_of_lt (h : Between a b x) (hc : c.isFinite) (hlt : c < a) : c < x := by
  rw [lt_iff_value hc h.isAmount.2]
  exact ((lt_iff_value hc h.low_isAmount.2).mp hlt).trans_le h.low_le

theorem Between.of_roundings {u v w : ℚ} (ha : IsRounding a u) (hx : IsRounding x v)
    (hb : IsRounding b w) (huv : u ≤ v) (hvw : v ≤ w) (hfinite : b.isFinite) : Between a b x := by
  have hxf := hx.isFinite_of_le hb hvw hfinite
  have haf := ha.isFinite_of_le hx huv hxf
  exact ⟨⟨ha.unsigned, haf⟩, ⟨hb.unsigned, hfinite⟩, ⟨hx.unsigned, hxf⟩, ha.mono hx haf hxf huv,
    hx.mono hb hxf hfinite hvw⟩

theorem IsAmount.isRounding_add (hx : x.IsAmount) (hy : y.IsAmount) :
    IsRounding (x + y) (x.value + y.value) := Binary64.isRounding_add hx.1 hy.1 hx.2 hy.2

theorem IsAmount.isRounding_mul (hx : x.IsAmount) (hy : y.IsAmount) :
    IsRounding (x * y) (x.value * y.value) := Binary64.isRounding_mul hx.1 hy.1 hx.2 hy.2

theorem Between.add (hx : Between a b x) (hy : Between c d y) (h : (b + d).isFinite) :
    Between (a + c) (b + d) (x + y) :=
  .of_roundings (hx.low_isAmount.isRounding_add hy.low_isAmount)
    (hx.isAmount.isRounding_add hy.isAmount) (hx.high_isAmount.isRounding_add hy.high_isAmount)
    (add_le_add hx.low_le hy.low_le) (add_le_add hx.le_high hy.le_high) h

theorem Between.mul (hx : Between a b x) (hy : Between c d y) (h : (b * d).isFinite) :
    Between (a * c) (b * d) (x * y) := by
  have hc := hy.low_isAmount.1.value_nonneg
  have hxv := hx.isAmount.1.value_nonneg
  have hyv := hy.isAmount.1.value_nonneg
  have hbv := hx.high_isAmount.1.value_nonneg
  exact .of_roundings (hx.low_isAmount.isRounding_mul hy.low_isAmount)
    (hx.isAmount.isRounding_mul hy.isAmount) (hx.high_isAmount.isRounding_mul hy.high_isAmount)
    (mul_le_mul hx.low_le hy.low_le hc hxv) (mul_le_mul hx.le_high hy.le_high hyv hbv) h

/-- A difference is least where most is taken from the least. -/
theorem Between.sub (hx : Between a b x) (hy : Between c d y) (h : d ≤ a) :
    Between (a - d) (b - c) (x - y) := by
  have hda := (le_iff_value hy.high_isAmount.2 hx.low_isAmount.2).mp h
  have hyx : y.value ≤ x.value := hy.le_high.trans (hda.trans hx.low_le)
  have hcb : c.value ≤ b.value := hy.low_le.trans (hyx.trans hx.le_high)
  have hb := isRounding_self hx.high_isAmount.1 hx.high_isAmount.2
  have hc := hy.low_isAmount.1.value_nonneg
  have hhigh := isRounding_sub hx.high_isAmount.1 hy.low_isAmount.1 hx.high_isAmount.2
    hy.low_isAmount.2 hcb
  refine .of_roundings
    (isRounding_sub hx.low_isAmount.1 hy.high_isAmount.1 hx.low_isAmount.2 hy.high_isAmount.2 hda)
    (isRounding_sub hx.isAmount.1 hy.isAmount.1 hx.isAmount.2 hy.isAmount.2 hyx) hhigh
    (sub_le_sub hx.low_le hy.le_high) (sub_le_sub hx.le_high hy.low_le) ?_
  exact hhigh.isFinite_of_le hb (sub_le_self _ hc) hx.high_isAmount.2

theorem Between.div (hx : Between a b x) (hc : c.IsAmount ∧ 0 < c) (h : (b / c).isFinite) :
    Between (a / c) (b / c) (x / c) := by
  obtain ⟨⟨hunsigned, hfinite⟩, hpos⟩ := hc
  rw [lt_iff_value isFinite_zero hfinite, value_zero] at hpos
  have hround : ∀ {z : Binary64}, z.IsAmount → IsRounding (z / c) (z.value / c.value) :=
    fun hz => isRounding_div hz.1 hunsigned hz.2 hfinite hpos
  exact .of_roundings (hround hx.low_isAmount) (hround hx.isAmount) (hround hx.high_isAmount)
    (div_le_div_of_nonneg_right hx.low_le hpos.le) (div_le_div_of_nonneg_right hx.le_high hpos.le) h

theorem isFinite_of_lt_of_lt (ha : a.isFinite) (hb : b.isFinite) (hax : a < x) (hxb : x < b) :
    x.isFinite := by
  obtain ⟨_, _, _, rfl⟩ := exists_finite ha
  obtain ⟨_, _, _, rfl⟩ := exists_finite hb
  cases x with
  | nan => cases hax
  | infinity negative =>
    cases negative with
    | false => cases hxb
    | true => cases hax
  | finite _ _ _ => rfl

/-- Whatever a number is, it is moved between the bounds. -/
theorem between_clamp {low high : Binary64} (hlow : low.IsAmount) (hhigh : high.IsAmount)
    (hle : low ≤ high) (x : Binary64) : Between low high (clamp low high x) := by
  have hvalues := (le_iff_value hlow.2 hhigh.2).mp hle
  by_cases hlt : low < high.smaller x
  · rw [clamp, larger, if_pos hlt]
    by_cases hsmaller : x < high
    · rw [smaller, if_pos hsmaller] at hlt ⊢
      have hfinite := isFinite_of_lt_of_lt hlow.2 hhigh.2 hlt hsmaller
      exact ⟨hlow, hhigh, ⟨hlow.1.of_lt hlt, hfinite⟩, ((lt_iff_value hlow.2 hfinite).mp hlt).le,
        ((lt_iff_value hfinite hhigh.2).mp hsmaller).le⟩
    · rw [smaller, if_neg hsmaller]
      exact ⟨hlow, hhigh, hhigh, hvalues, le_rfl⟩
  · rw [clamp, larger, if_neg hlt]
    exact ⟨hlow, hhigh, hlow, le_rfl, hvalues⟩

theorem Between.floor (h : Between a b x) {i j : Int} (ha : a.floor = .ok i) (hb : b.floor = .ok j) :
    ∃ k, x.floor = .ok k ∧ i ≤ k ∧ k ≤ j := by
  have hfloor := floor_eq_ok h.isAmount.2
  refine ⟨_, hfloor, (le_floor_iff hfloor).mpr ?_, (le_floor_iff hb).mpr ?_⟩
  · exact (floor_le_value ha).1.trans h.low_le
  · exact (floor_le_value hfloor).1.trans h.le_high

/-- Steps that are counted to the nearest keep the order of the numbers. -/
theorem Between.roundHalfUp_div {step : Binary64} (h : Between a b x)
    (hstep : step.IsAmount ∧ 0 < step) {i j : Int} (ha : (a / step).roundHalfUp = .ok i)
    (hb : (b / step).roundHalfUp = .ok j) :
    ∃ k, (x / step).roundHalfUp = .ok k ∧ i ≤ k ∧ k ≤ j := by
  have hhalf : IsAmount 0.5 := by decide +kernel
  have hpos : 0 < step.value := by
    rw [← value_zero, ← lt_iff_value isFinite_zero hstep.1.2]
    exact hstep.2
  have hround := isRounding_div h.high_isAmount.1 hstep.1.1 h.high_isAmount.2 hstep.1.2 hpos
  have hsumfin := isFinite_of_floor hb
  have hquotient := Unsigned.isFinite_of_add hround.unsigned hhalf.1 hsumfin
  have hsum := (h.div hstep hquotient.1).add (between_self hhalf) hsumfin
  exact hsum.floor ha hb

end Bounds

theorem Between.roundTo (places : Nat) {a b x : Binary64} (h : Between a b x) :
    Between (Decimal.roundTo places a) (Decimal.roundTo places b) (Decimal.roundTo places x) := by
  have hamount : ∀ {z : Binary64}, z.IsAmount → (Decimal.roundTo places z).IsAmount := by
    rintro z ⟨hunsigned, hfinite⟩
    obtain ⟨s, hround, _⟩ := Decimal.isRounding_roundTo places hunsigned hfinite
    exact ⟨hround.unsigned, Decimal.isFinite_roundTo places hfinite⟩
  have hmono : ∀ {y z : Binary64}, y.IsAmount → z.IsAmount → y.value ≤ z.value →
      (Decimal.roundTo places y).value ≤ (Decimal.roundTo places z).value := by
    intro y z hy hz hle
    have hrounded := Decimal.units_roundTo_mono places hy.2 hz.2 ((units_le_iff hy.2 hz.2).mpr hle)
    exact (units_le_iff (hamount hy).2 (hamount hz).2).mp hrounded
  exact ⟨hamount h.low_isAmount, hamount h.high_isAmount, hamount h.isAmount,
    hmono h.low_isAmount h.isAmount h.low_le, hmono h.isAmount h.high_isAmount h.le_high⟩

/-- An amount that makes between `m` and `n` units of the last place. -/
theorem between_roundTo (places : Nat) {u m n : Nat} (hu : Representable u)
    (hm : m ≤ Decimal.scaled places u) (hn : Decimal.scaled places u ≤ n)
    (hfinite : (ofFraction false n (10 ^ places)).isFinite) :
    Between (.ofFraction false m (10 ^ places)) (.ofFraction false n (10 ^ places))
      (Decimal.roundTo places (.finite false u hu)) := by
  have hpow : 0 < 10 ^ places := by positivity
  have hcount : ∀ k : Nat,
      IsRounding (.ofFraction false k (10 ^ places)) (k / 10 ^ places) := by
    intro k
    have hround := isRounding_ofFraction k hpow
    push_cast at hround
    exact hround
  exact .of_roundings (hcount m) (Decimal.isRounding_scaled places hu) (hcount n) (by gcongr)
    (by gcongr) hfinite

end Binary64
end PatternLoom
