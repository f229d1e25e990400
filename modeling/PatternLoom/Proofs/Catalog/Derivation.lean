import Mathlib
import PatternLoom.Proofs.Catalog.Levels
import PatternLoom.Proofs.Stream.Rejection

/-! Adjustments from whatever parameters there are. What is missing or malformed gives way to a
fallback and every other number is moved within its bounds, but for the two cycles of the polyrhythm:
these are taken as they are, and one that is not above zero stops its layer or turns it round. -/

namespace PatternLoom

open Binary64 (Between BeyondRange between_self)

/-- Parameters without integers beyond the range of numbers. -/
def Params.Readable (params : Params) : Prop :=
  ∀ key n, params.get? key = some (.int n) → ¬ BeyondRange n.natAbs

/-- Speeds that are finite. -/
def Levels.Measured (l : Levels) : Prop :=
  (∀ x ∈ l.slow, x.isFinite) ∧ ∀ x ∈ l.fast, x.isFinite

/-- Gains from zero to one, finite speeds, and swing above zero. -/
structure Adjustments.Tame (a : Adjustments) : Prop where
  levels : a.Each fun _ _ l => l.Bounded ∧ l.Measured
  swings : a.Swings

/-- Nothing is out of bounds, stopped or reversed. -/
structure Adjustments.Sane (a : Adjustments) : Prop where
  tame : a.Tame
  paced : a.Each fun _ _ l => l.Paced

/-- A cycle of which a quarter is more than half a thousandth, so that something is left of it to
three places. -/
def Catalog.Turns (params : Params) (key : String) (fallback : Binary64) : Prop :=
  ∃ x, Value.toNumber fallback (params.get? key) = .ok x ∧ 1 / 2000 < (x / 4).value

section Reading

variable {params : Params}

theorem Params.readable_of_forall (h : ∀ e ∈ params, ∀ n, e.2 ≠ .int n) : params.Readable :=
  fun _ n hget => absurd rfl (h _ (Table.mem_of_get? hget) n)

theorem Params.Readable.toNumber_eq_ok (hp : params.Readable) (fallback : Binary64) (key : String) :
    ∃ x, Value.toNumber fallback (params.get? key) = .ok x := by
  cases hv : params.get? key with
  | none => exact ⟨_, rfl⟩
  | some value =>
    cases value with
    | int n =>
      obtain ⟨x, hx, _⟩ := Binary64.ofInt_eq_ok (not_le.mp (hp key n hv))
      exact ⟨x, hx⟩
    | _ => exact ⟨_, rfl⟩

theorem isFinite_toNumber {fallback x : Binary64} {given : Option Value} (hf : fallback.isFinite)
    (h : Value.toNumber fallback given = .ok x) : x.isFinite := by
  have hguard : ∀ y : Binary64, (if y.isFinite then y else fallback).isFinite := by
    intro y
    split
    · assumption
    · exact hf
  unfold Value.toNumber at h
  split at h
  · exact Binary64.isFinite_of_ofInt h
  · obtain rfl := Except.ok.inj h
    exact hguard _
  · obtain rfl := Except.ok.inj h
    split
    · exact hguard _
    · exact hf
  · obtain rfl := Except.ok.inj h
    exact hf

theorem Params.Readable.clamped_eq_ok (hp : params.Readable) (key : String)
    (low high fallback : Binary64) : ∃ x, Catalog.clamped params key low high fallback = .ok x := by
  obtain ⟨x, hx⟩ := hp.toNumber_eq_ok fallback key
  exact ⟨_, bind_eq_ok.mpr ⟨x, hx, rfl⟩⟩

end Reading

theorem Levels.Paced.measured {l : Levels} (h : l.Paced) : l.Measured :=
  ⟨fun x hx => (h.1 x hx).1, fun x hx => (h.2 x hx).1⟩

theorem Catalog.Sets.between {params : Params} {id layer : String} {phase : Option String}
    {l : Levels} (h : Catalog.Sets params id phase layer l) : ∀ g ∈ l.gain, Between 0 1 g := by
  cases h with
  | loud hloud =>
    exact fun g hg => (hloud g hg).widen (by decide +kernel) (by decide +kernel)
  | mute _ =>
    intro g hg
    have hzero : g = 0 := (Option.some.inj hg).symm
    rw [hzero]
    exact (between_self (by decide +kernel)).widen (by decide +kernel) (by decide +kernel)
  | @faint x hfaint =>
    intro g hg
    have hg' : g = Decimal.roundTo 3 x := (Option.some.inj hg).symm
    rw [hg']
    exact (hfaint.between.roundTo 3).widen (by decide +kernel) (by decide +kernel)

theorem Catalog.Sets.bounded {params : Params} {id layer : String} {phase : Option String}
    {l : Levels} (h : Catalog.Sets params id phase layer l) : l.Bounded :=
  fun g hg => (h.between g hg).bounds

namespace Catalog

section Templates

variable {params : Params}

theorem exists_clamped_bind (hp : params.Readable) {key : String} {low high fallback : Binary64}
    {f : Binary64 → Result Adjustments} (hf : ∀ x, ∃ a, f x = .ok a) :
    ∃ a, (clamped params key low high fallback >>= f) = .ok a := by
  obtain ⟨x, hx⟩ := hp.clamped_eq_ok key low high fallback
  obtain ⟨a, ha⟩ := hf x
  exact ⟨a, bind_eq_ok.mpr ⟨x, hx, ha⟩⟩

theorem exists_pickOne_bind {s : Stream} {options : List String} (h : options.length = 2)
    {f : String × Stream → Result Adjustments} (hf : ∀ option, ∃ a, f option = .ok a) :
    ∃ a, (s.pickOne options >>= f) = .ok a := by
  have hne : options ≠ [] := List.ne_nil_of_length_eq_add_one h
  have hcount : ¬ BeyondRange options.length := Binary64.not_beyondRange (h.le.trans (by decide))
  obtain ⟨option, _, hoption⟩ := Stream.pickOne_eq_ok hne hcount s
  obtain ⟨a, ha⟩ := hf (option, s.advance)
  exact ⟨a, bind_eq_ok.mpr ⟨_, hoption, ha⟩⟩

/-- The speed of a cycle is finite, and above zero just if enough is left of it. -/
theorem paced_quarter {x : Binary64} (hx : x.isFinite) {l : Levels}
    (hl : l = { fast := some (Decimal.roundTo 3 (x / 4)) }) :
    l.Measured ∧ (l.Paced ↔ 1 / 2000 < (x / 4).value) := by
  have hquarter : (x / 4).isFinite := by
    have hnan := Binary64.isNan_div (Binary64.isNan_of_isFinite hx) (y := 4) (by decide +kernel)
      (by decide +kernel)
    have hinfinite := Binary64.isInfinite_div x (y := 4) (by decide +kernel) (by decide +kernel)
    rw [(Binary64.isInfinite_eq_false (Binary64.isNan_of_isFinite hx)).mpr hx] at hinfinite
    exact (Binary64.isInfinite_eq_false hnan).mp hinfinite
  have hrounded := Decimal.isFinite_roundTo 3 hquarter
  have hpos := @Decimal.zero_lt_roundTo_iff 3 (by decide) _ hquarter
  norm_num at hpos
  subst hl
  simp [Levels.Measured, Levels.Paced, hrounded, hpos]

theorem PolyrhythmGrid.adjust_paced (hp : params.Readable) (seed : String) :
    ∃ a, PolyrhythmGrid.adjust params seed = .ok a ∧ (a.Each fun _ _ l => l.Measured) ∧ a.Swings ∧
      ((a.Each fun _ _ l => l.Paced) ↔ Turns params "cycle_a" 3 ∧ Turns params "cycle_b" 5) := by
  obtain ⟨x, hx⟩ := hp.toNumber_eq_ok 3 "cycle_a"
  obtain ⟨y, hy⟩ := hp.toNumber_eq_ok 5 "cycle_b"
  obtain ⟨hxm, hxp⟩ := paced_quarter (isFinite_toNumber (by decide +kernel) hx) rfl
  obtain ⟨hym, hyp⟩ := paced_quarter (isFinite_toNumber (by decide +kernel) hy) rfl
  have hturns : ∀ {key fallback z}, Value.toNumber fallback (params.get? key) = .ok z →
      (Turns params key fallback ↔ 1 / 2000 < (z / 4).value) := by
    intro key fallback z hz
    constructor
    · rintro ⟨z', hz', hlt⟩
      rwa [Except.ok.inj (hz.symm.trans hz')]
    · exact fun hlt => ⟨z, hz, hlt⟩
  rw [hturns hx, hturns hy, ← hxp, ← hyp]
  simp only [PolyrhythmGrid.adjust, bind_eq_ok, pure_eq_ok]
  refine ⟨_, ⟨x, hx, y, hy, rfl⟩, ?_, (lilts_of_none rfl).swings, ?_⟩
  · simp [Adjustments.Each, hxm, hym]
  · simp [Adjustments.Each]

end Templates

theorem adjust_eq_ok {t : Template} (ht : t ∈ catalog) {params : Params} (hp : params.Readable)
    (seed : String) : ∃ a, t.adjust params seed = .ok a := by
  -- A template reads one or two parameters, and two of the templates pick among their variants.
  have hone : ∀ {key low high fallback} (f : Binary64 → Adjustments),
      ∃ a, (clamped params key low high fallback >>= fun x => pure (f x)) = .ok a :=
    fun f => exists_clamped_bind hp fun x => ⟨f x, rfl⟩
  simp only [catalog, List.mem_cons, List.not_mem_nil, or_false] at ht
  rcases ht with rfl | rfl | rfl | rfl | rfl | rfl | rfl | rfl | rfl | rfl | rfl
  · exact exists_clamped_bind hp fun _ => hone _
  · exact exists_clamped_bind hp fun _ => exists_clamped_bind hp fun _ =>
      exists_pickOne_bind rfl fun _ => exists_pickOne_bind rfl fun _ => ⟨_, rfl⟩
  · exact exists_clamped_bind hp fun _ => exists_clamped_bind hp fun _ =>
      exists_pickOne_bind rfl fun _ => exists_pickOne_bind rfl fun _ =>
        exists_pickOne_bind rfl fun _ => exists_pickOne_bind rfl fun _ => ⟨_, rfl⟩
  · exact hone _
  · exact exists_clamped_bind hp fun _ => hone _
  · exact hone _
  · exact hone _
  · exact hone _
  · exact hone _
  · exact hone _
  · obtain ⟨a, ha, _⟩ := PolyrhythmGrid.adjust_paced hp seed
    exact ⟨a, ha⟩

end Catalog

/-- Whatever is given for its parameters, a template of the catalog comes to adjustments whose gains
are from zero to one and whose speeds are finite. All speeds are above zero, unless they are those of
the polyrhythm and one of its cycles is not. -/
theorem catalog_adjusts {t : Template} (ht : t ∈ catalog) {params : Params} (hp : params.Readable)
    (seed : String) : ∃ a, t.adjust params seed = .ok a ∧ a.Tame ∧ (a.Sane ↔
      (t.id = "polyrhythm-grid" →
        Catalog.Turns params "cycle_a" 3 ∧ Catalog.Turns params "cycle_b" 5)) := by
  by_cases hid : t.id = "polyrhythm-grid"
  · obtain rfl := Catalog.eq_polyrhythmGrid ht hid
    obtain ⟨a, ha, hmeasured, hswings, hpaced⟩ := Catalog.PolyrhythmGrid.adjust_paced hp seed
    have hsets := Catalog.PolyrhythmGrid.adjust_sets seed ha
    have htame : a.Tame := ⟨hsets.and hmeasured fun _ _ _ hs hm => ⟨hs.bounded, hm⟩, hswings⟩
    refine ⟨a, ha, htame, fun h _ => hpaced.mp h.paced, fun h => ⟨htame, hpaced.mpr (h hid)⟩⟩
  · obtain ⟨a, ha⟩ := Catalog.adjust_eq_ok ht hp seed
    obtain ⟨hfits, hlilts⟩ := Catalog.adjust_fits ht hid ha
    have htame : a.Tame :=
      ⟨hfits.imp fun _ _ _ hf => ⟨hf.1.bounded, hf.2.paced.measured⟩, hlilts.swings⟩
    have hsane : a.Sane := ⟨htame, hfits.imp fun _ _ _ hf => hf.2.paced⟩
    exact ⟨a, ha, htame, iff_of_true hsane fun h => absurd h hid⟩

/-- Parameters that no template expects. -/
def oddParams : Params :=
  [("swing", .text "nan"), ("cycle_a", .text "0"), ("rotate", .null), ("grit", .real .nan)]

theorem oddParams_readable : oddParams.Readable := by
  refine Params.readable_of_forall ?_
  simp [oddParams]

theorem oddParams_adjusts : Catalog.SwingGroove.template ∈ catalog ∧ oddParams.Readable ∧
    ∃ a, Catalog.SwingGroove.template.adjust oddParams "seed" = .ok a ∧ a.Sane := by
  have hmem : Catalog.SwingGroove.template ∈ catalog := by simp [catalog]
  obtain ⟨a, ha, _, hsane⟩ := catalog_adjusts hmem oddParams_readable "seed"
  exact ⟨hmem, oddParams_readable, a, ha, hsane.mpr fun h => absurd h (by decide)⟩

/-- A cycle of no hits stops its layer. -/
theorem zeroCycle_stops : Catalog.PolyrhythmGrid.template ∈ catalog ∧ oddParams.Readable ∧
    ∃ a, Catalog.PolyrhythmGrid.template.adjust oddParams "seed" = .ok a ∧
      a.levels.get? "cycle-a" = some { fast := some 0 } ∧ ¬ a.Sane := by
  have hzero : Value.toNumber 3 (oddParams.get? "cycle_a") = .ok 0 := by decide +kernel
  have hfive : Value.toNumber 5 (oddParams.get? "cycle_b") = .ok 5 := by decide +kernel
  have hstop : Decimal.roundTo 3 (0 / 4) = 0 := by decide +kernel
  refine ⟨by simp [catalog], oddParams_readable, _,
    bind_eq_ok.mpr ⟨0, hzero, bind_eq_ok.mpr ⟨5, hfive, rfl⟩⟩, ?_, fun hsane => ?_⟩
  · rw [hstop]
    rfl
  · obtain ⟨_, hpositive⟩ := (hsane.paced.1 _ List.mem_cons_self).2 _ rfl
    rw [hstop] at hpositive
    exact absurd hpositive (by decide +kernel)

end PatternLoom
