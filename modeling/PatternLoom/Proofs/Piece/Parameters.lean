import Mathlib
import PatternLoom.Template
import PatternLoom.Proofs.Decimal.Rounded
import PatternLoom.Proofs.Result

/-! The values that parameters resolve to, from draws and from overrides. Given back as an
override each of them is taken as it is. -/

namespace PatternLoom

theorem mem_of_nth {α : Type} {xs : List α} {i : Int} {x : α} (h : nth xs i = some x) : x ∈ xs := by
  rw [nth] at h
  generalize (if i < 0 then i + xs.length else i) = j at h
  split at h
  · cases h
  · exact List.mem_of_getElem? h

namespace Binary64

theorem not_lt_self {x : Binary64} (hx : x.isFinite) : ¬ x < x := fun h =>
  absurd ((lt_iff_units hx hx).mp h) (lt_irrefl _)

theorem lt_or_lt_of_infinite {x low high : Binary64} (hx : x.isNan = false)
    (h : x.isFinite = false) (hlow : low.isFinite) (hhigh : high.isFinite) :
    x < low ∨ high < x := by
  cases x with
  | nan => cases hx
  | finite _ _ _ => cases h
  | infinity negative =>
    cases negative with
    | true =>
      obtain ⟨_, _, _, rfl⟩ := exists_finite hlow
      exact .inl rfl
    | false =>
      obtain ⟨_, _, _, rfl⟩ := exists_finite hhigh
      exact .inr rfl

/-- A finite number plus what is no `nan`. -/
theorem isNan_finite_add {x y : Binary64} (hx : x.isFinite) (hy : y.isNan = false) :
    (x + y).isNan = false := by
  obtain ⟨a, u, hu, rfl⟩ := exists_finite hx
  cases y with
  | nan => cases hy
  | infinity _ => rfl
  | finite b v hv => exact isNan_add rfl rfl

end Binary64

namespace ParamSpec

variable {spec : ParamSpec}

/-- Bounds and step of a number are finite, and the bounds have no more places than a draw
keeps. -/
def Placed (spec : ParamSpec) : Prop :=
  spec.kind = .number → spec.low.isFinite ∧ spec.high.isFinite ∧ spec.step.isFinite ∧
    Decimal.roundTo 4 spec.low = spec.low ∧ Decimal.roundTo 4 spec.high = spec.high

instance : DecidablePred Placed := fun spec => by
  unfold Placed
  infer_instance

/-- A value that is taken as it is when it is given for the parameter. -/
def Keeps (spec : ParamSpec) (value : Value) : Prop :=
  value.isNull = false ∧ ∀ sampled, spec.override value sampled = .ok value

/-- A finite number within the bounds. -/
def Within (spec : ParamSpec) (x : Binary64) : Prop :=
  x.isFinite ∧ ¬ x < spec.low ∧ ¬ spec.high < x

theorem Within.clamp {x : Binary64} (h : spec.Within x) : spec.clamp x = x := by
  rw [ParamSpec.clamp, if_neg h.2.1, if_neg h.2.2]

theorem Within.keeps {x : Binary64} (hk : spec.kind = .number) (h : spec.Within x) :
    spec.Keeps (.real x) := by
  refine ⟨rfl, fun sampled => ?_⟩
  simp only [override, hk, Value.number?, bind, Except.bind, pure, Except.pure, if_pos h.1, h.clamp]

theorem clamp_within {x : Binary64} (hk : spec.kind = .number) (hlow : spec.low.isFinite)
    (hhigh : spec.high.isFinite) (hx : x.isNan = false) : spec.Within (spec.clamp x) := by
  have hbounds := (spec.bounds hk).1
  unfold ParamSpec.clamp
  split
  · exact ⟨hlow, Binary64.not_lt_self hlow, hbounds⟩
  · rename_i hbelow
    split
    · exact ⟨hhigh, hbounds, Binary64.not_lt_self hhigh⟩
    · rename_i habove
      refine ⟨?_, hbelow, habove⟩
      by_contra hc
      rcases Binary64.lt_or_lt_of_infinite hx (Bool.eq_false_of_not_eq_true hc) hlow hhigh with h | h
      · exact hbelow h
      · exact habove h

/-- Keeping four places leaves a number within bounds that do not move inwards by it. -/
theorem roundTo_within {x : Binary64} (hlow : spec.low.isFinite) (hhigh : spec.high.isFinite)
    (hlow4 : ¬ Decimal.roundTo 4 spec.low < spec.low)
    (hhigh4 : ¬ spec.high < Decimal.roundTo 4 spec.high) (h : spec.Within x) :
    spec.Within (Decimal.roundTo 4 x) := by
  obtain ⟨hfin, hbelow, habove⟩ := h
  have hround := Decimal.isFinite_roundTo 4 hfin
  rw [Binary64.lt_iff_units hfin hlow, not_lt] at hbelow
  rw [Binary64.lt_iff_units hhigh hfin, not_lt] at habove
  rw [Binary64.lt_iff_units (Decimal.isFinite_roundTo 4 hlow) hlow, not_lt] at hlow4
  rw [Binary64.lt_iff_units hhigh (Decimal.isFinite_roundTo 4 hhigh), not_lt] at hhigh4
  refine ⟨hround, ?_, ?_⟩
  · rw [Binary64.lt_iff_units hround hlow, not_lt]
    exact hlow4.trans (Decimal.units_roundTo_mono 4 hlow hfin hbelow)
  · rw [Binary64.lt_iff_units hhigh hround, not_lt]
    exact (Decimal.units_roundTo_mono 4 hfin hhigh habove).trans hhigh4

/-- Of an option that is offered the text is found again. -/
theorem keeps_text {candidate : String} (hk : spec.kind = .select)
    (h : candidate ∈ spec.options ∨ spec.options = [] ∧ candidate = "") :
    spec.Keeps (.text candidate) := by
  refine ⟨rfl, fun sampled => ?_⟩
  have htext : (Value.text candidate).written = .ok candidate := rfl
  simp only [override, hk, htext, bind_eq_ok, pure_eq_ok]
  refine ⟨candidate, rfl, congrArg Value.text ?_⟩
  rcases h with h | ⟨hnil, rfl⟩
  · rw [if_pos (List.contains_iff_mem.mpr h)]
  · rw [hnil]
    rfl

theorem keeps_bool (hk : spec.kind = .boolean) (b : Bool) : spec.Keeps (.bool b) :=
  ⟨rfl, fun sampled => by simp only [override, hk, Value.isTrue]⟩

theorem keeps_sample {draw : Binary64} {value : Value} (hp : spec.Placed)
    (h : spec.sample draw = .ok value) : spec.Keeps value := by
  cases hk : spec.kind with
  | number =>
    obtain ⟨hlow, hhigh, hstep, hlow4, hhigh4⟩ := hp hk
    simp only [sample, hk, bind_eq_ok, pure_eq_ok] at h
    obtain ⟨_, _, _, _, index, _, y, hy, rfl⟩ := h
    have hproduct := Binary64.isNan_mul (Binary64.isFinite_of_ofInt hy) hstep
    have hsum := Binary64.isNan_finite_add hlow hproduct
    have hwithin := roundTo_within hlow hhigh (by rw [hlow4]; exact Binary64.not_lt_self hlow)
      (by rw [hhigh4]; exact Binary64.not_lt_self hhigh) (clamp_within hk hlow hhigh hsum)
    exact hwithin.keeps hk
  | select =>
    simp only [sample, hk] at h
    split at h
    · rename_i hempty
      obtain rfl := Except.ok.inj h
      exact keeps_text hk (.inr ⟨List.isEmpty_iff.mp hempty, rfl⟩)
    · obtain ⟨n, _, h⟩ := bind_eq_ok.mp h
      obtain ⟨i, _, h⟩ := bind_eq_ok.mp h
      split at h
      · rename_i option hoption
        obtain rfl := pure_eq_ok.mp h
        exact keeps_text hk (.inl (mem_of_nth hoption))
      · cases h
  | boolean =>
    simp only [sample, hk] at h
    obtain rfl := Except.ok.inj h
    exact keeps_bool hk _

theorem keeps_override {given sampled value : Value} (hp : spec.Placed)
    (hs : spec.Keeps sampled) (h : spec.override given sampled = .ok value) :
    spec.Keeps value := by
  cases hk : spec.kind with
  | number =>
    obtain ⟨hlow, hhigh, _⟩ := hp hk
    simp only [override, hk, bind_eq_ok] at h
    obtain ⟨number, _, h⟩ := h
    cases number with
    | none =>
      obtain ⟨_, _, h⟩ := bind_eq_ok.mp h
      obtain rfl := pure_eq_ok.mp h
      exact hs
    | some x =>
      obtain rfl := pure_eq_ok.mp h
      split
      · rename_i hx
        exact (clamp_within hk hlow hhigh (Binary64.isNan_of_isFinite hx)).keeps hk
      · exact hs
  | select =>
    simp only [override, hk, bind_eq_ok] at h
    obtain ⟨candidate, _, h⟩ := h
    obtain rfl := pure_eq_ok.mp h
    refine keeps_text hk ?_
    split
    · rename_i hcontains
      exact .inl (List.contains_iff_mem.mp hcontains)
    · cases spec.options with
      | nil => exact .inr ⟨rfl, rfl⟩
      | cons first more => exact .inl List.mem_cons_self
  | boolean =>
    simp only [override, hk] at h
    obtain rfl := Except.ok.inj h
    exact keeps_bool hk _

end ParamSpec
end PatternLoom
