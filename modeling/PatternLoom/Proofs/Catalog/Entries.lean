import Mathlib
import PatternLoom.Catalog
import PatternLoom.Proofs.Binary64.Between
import PatternLoom.Proofs.Binary64.Order
import PatternLoom.Proofs.Result

/-! Levels from formulas. A template sets a gain or a speed to a formula in a parameter that is moved
within its bounds first, so what it sets lies between what it sets for the bounds. A few gains may
come out too low to be heard. -/

namespace PatternLoom

open Binary64 (Between IsAmount between_self)

theorem Table.eq_or_mem_of_mem_put {α : Type} {t : Table α} {key : String} {value : α}
    {e : String × α} (h : e ∈ t.put key value) : e = (key, value) ∨ e ∈ t := by
  induction t with
  | nil => exact .inl (List.mem_singleton.mp h)
  | cons entry rest ih =>
    obtain ⟨k, v⟩ := entry
    rw [put] at h
    split at h
    · rename_i hk
      subst hk
      rcases List.mem_cons.mp h with h | h
      · exact .inl h
      · exact .inr (List.mem_cons_of_mem _ h)
    · rcases List.mem_cons.mp h with rfl | h
      · exact .inr List.mem_cons_self
      · exact (ih h).imp_right (List.mem_cons_of_mem _)

theorem Table.mem_of_get? {α : Type} {t : Table α} {key : String} {value : α}
    (h : t.get? key = some value) : (key, value) ∈ t := by
  induction t with
  | nil => cases h
  | cons entry rest ih =>
    obtain ⟨k, v⟩ := entry
    rw [get?] at h
    split at h
    · rename_i hk
      obtain rfl := Option.some.inj h
      rw [hk]
      exact List.mem_cons_self
    · exact List.mem_cons_of_mem _ (ih h)

/-- Gains from half a step of the grid of gains to one. -/
def Levels.Loud (l : Levels) : Prop := ∀ g ∈ l.gain, Between 0.025 1 g

/-- Gains from zero to one. -/
def Levels.Bounded (l : Levels) : Prop := ∀ g ∈ l.gain, g.isFinite ∧ 0 ≤ g ∧ g ≤ 1

/-- Speeds above zero. -/
def Levels.Paced (l : Levels) : Prop :=
  (∀ x ∈ l.slow, x.isFinite ∧ 0 < x) ∧ ∀ x ∈ l.fast, x.isFinite ∧ 0 < x

/-- Speeds above zero, up to eight. -/
def Levels.Steady (l : Levels) : Prop :=
  (∀ x ∈ l.slow, x.IsAmount ∧ 0 < x ∧ x ≤ 8) ∧ ∀ x ∈ l.fast, x.IsAmount ∧ 0 < x ∧ x ≤ 8

theorem Levels.Steady.paced {l : Levels} (h : l.Steady) : l.Paced :=
  ⟨fun x hx => ⟨(h.1 x hx).1.2, (h.1 x hx).2.1⟩, fun x hx => ⟨(h.2 x hx).1.2, (h.2 x hx).2.1⟩⟩

/-- Levels that are set for layers, in a phase or, without one, in all of them. -/
def Adjustments.Each (a : Adjustments) (P : Option String → String → Levels → Prop) : Prop :=
  (∀ e ∈ a.levels, P none e.1 e.2) ∧ ∀ p ∈ a.phaseLevels, ∀ e ∈ p.2, P (some p.1) e.1 e.2

section Each

variable {a : Adjustments} {P Q R : Option String → String → Levels → Prop}

theorem Adjustments.Each.imp (h : a.Each P)
    (himp : ∀ phase layer l, P phase layer l → Q phase layer l) : a.Each Q :=
  ⟨fun e he => himp _ _ _ (h.1 e he), fun p hp e he => himp _ _ _ (h.2 p hp e he)⟩

theorem Adjustments.Each.and (h : a.Each P) (h' : a.Each Q)
    (himp : ∀ phase layer l, P phase layer l → Q phase layer l → R phase layer l) : a.Each R :=
  ⟨fun e he => himp _ _ _ (h.1 e he) (h'.1 e he),
    fun p hp e he => himp _ _ _ (h.2 p hp e he) (h'.2 p hp e he)⟩

end Each

/-- A groove with some swing. -/
def Adjustments.Swings (a : Adjustments) : Prop :=
  ∀ g ∈ a.groove, g.swing.isFinite ∧ 0 < g.swing

/-- A groove with a swing up to eight, on four or eight slots. -/
def Adjustments.Lilts (a : Adjustments) : Prop :=
  ∀ g ∈ a.groove, (g.swing.IsAmount ∧ 0 < g.swing ∧ g.swing ≤ 8) ∧
    (g.subdivision = 4 ∨ g.subdivision = 8)

theorem Adjustments.Lilts.swings {a : Adjustments} (h : a.Lilts) : a.Swings :=
  fun g hg => ⟨(h g hg).1.1.2, (h g hg).1.2.1⟩

namespace Catalog

/-- The gains that some parameters bring below half a step of the grid, before they are rounded to
three places, with the layer that they are for and the phase, if they are for one. -/
inductive Faint (params : Params) : String → Option String → String → Binary64 → Prop
  | sparkle {air motion : Binary64} (air_eq : clamped params "air" 0.2 1 0.7 = .ok air)
    (motion_eq : clamped params "motion" 0 1 0.4 = .ok motion) :
    Faint params "ambient" none "sparkle" (0.01 + air * 0.03 + motion * 0.03)
  | bass {motion : Binary64} (motion_eq : clamped params "motion" 0 1 0.4 = .ok motion) :
    Faint params "ambient" (some "09-bass-soften") "bass" (0.02 + motion * 0.05)
  | texture {grit : Binary64} (grit_eq : clamped params "grit" 0 1 0.6 = .ok grit) :
    Faint params "rap-80s" none "texture" (0.02 + grit * 0.07)
  | textureAlt {grit : Binary64} (grit_eq : clamped params "grit" 0 1 0.6 = .ok grit) :
    Faint params "rap-80s" none "texture-alt" (0.02 + grit * 0.06)

/-- What a template sets for a layer: a gain that is loud enough, if it sets one, silence in a phase,
or a gain that may be faint. -/
inductive Sets (params : Params) (id : String) (phase : Option String) (layer : String) :
    Levels → Prop
  | loud {l : Levels} (loud : l.Loud) : Sets params id phase layer l
  | mute (in_phase : phase.isSome) : Sets params id phase layer muted
  | faint {x : Binary64} (spot : Faint params id phase layer x) : Sets params id phase layer (gain x)

/-- What a template sets for a layer whose speeds are above zero. -/
def Fits (params : Params) (id : String) (phase : Option String) (layer : String) (l : Levels) :
    Prop := Sets params id phase layer l ∧ l.Steady

section Bounds

variable {low high low' high' a b c p q x : Binary64}

/-- An amount and a multiple of it that can be added to the other. -/
def IsLine (a b high : Binary64) : Prop := a.IsAmount ∧ b.IsAmount ∧ (a + high * b).isFinite

instance : Decidable (IsLine a b high) := inferInstanceAs (Decidable (_ ∧ _))

theorem clamped_between {params : Params} {key : String} {fallback : Binary64}
    (h : clamped params key low high fallback = .ok p)
    (hc : low.IsAmount ∧ high.IsAmount ∧ low ≤ high) : Between low high p := by
  obtain ⟨hlow, hhigh, hle⟩ := hc
  obtain ⟨x, _, hx⟩ := bind_eq_ok.mp h
  obtain rfl := pure_eq_ok.mp hx
  exact Binary64.between_clamp hlow hhigh hle x

theorem between_scaled (h : Between low high x) (hc : a.IsAmount ∧ (a * high).isFinite) :
    Between (a * low) (a * high) (a * x) := (between_self hc.1).mul h hc.2

theorem between_line (h : Between low high p) (hc : IsLine a b high) :
    Between (a + low * b) (a + high * b) (a + p * b) := by
  obtain ⟨ha, hb, hsum⟩ := hc
  have hround := h.high_isAmount.isRounding_mul hb
  have hproduct := Binary64.Unsigned.isFinite_of_add ha.1 hround.unsigned hsum
  exact (between_self ha).add (h.mul (between_self hb) hproduct.2) hsum

theorem between_plane (h : Between low high p) (h' : Between low' high' q)
    (hc : IsLine a b high ∧ IsLine (a + high * b) c high') :
    Between (a + low * b + low' * c) (a + high * b + high' * c) (a + p * b + q * c) := by
  obtain ⟨hline, hamount, hfactor, hsum⟩ := hc
  have hround := h'.high_isAmount.isRounding_mul hfactor
  have hproduct := Binary64.Unsigned.isFinite_of_add hamount.1 hround.unsigned hsum
  exact (between_line h hline).add (h'.mul (between_self hfactor) hproduct.2) hsum

theorem between_descent (h : Between low high p)
    (hc : a.IsAmount ∧ b.IsAmount ∧ (high * b).isFinite ∧ high * b ≤ a) :
    Between (a - high * b) (a - low * b) (a - p * b) := by
  obtain ⟨ha, hb, hproduct, hle⟩ := hc
  exact (between_self ha).sub (h.mul (between_self hb) hproduct) hle

/-- Moving a parameter onto `[0, 1]` is exact at its bounds. -/
theorem between_unitScale (h : Between 0.2 1 p) : Between 0 1 (unitScale p) := by
  have hfifth : Binary64.IsAmount 0.2 := by decide +kernel
  have hmoved := (h.sub (between_self hfifth) (by decide +kernel)).div (c := 0.8)
    (by decide +kernel) (by decide +kernel)
  have hlow : (0.2 - 0.2) / 0.8 = (0 : Binary64) := by decide +kernel
  have hhigh : (1 - 0.2) / 0.8 = (1 : Binary64) := by decide +kernel
  rwa [hlow, hhigh] at hmoved

end Bounds

section Entries

variable {params : Params} {id layer : String} {phase : Option String}
  {low high low' high' a b p x y : Binary64}

/-- The rounded bounds of a speed or a swing are above zero and up to eight. -/
def SteadyFrom (low high : Binary64) : Prop :=
  0 < Decimal.roundTo 3 low ∧ Decimal.roundTo 3 high ≤ 8

instance : Decidable (SteadyFrom low high) := inferInstanceAs (Decidable (_ ∧ _))

theorem steady_of_between (h : Between low high x) (hc : SteadyFrom low high) :
    (Decimal.roundTo 3 x).IsAmount ∧ 0 < Decimal.roundTo 3 x ∧ Decimal.roundTo 3 x ≤ 8 :=
  have hrounded := h.roundTo 3
  ⟨hrounded.isAmount, hrounded.lt_of_lt Binary64.isFinite_zero hc.1,
    Binary64.le_trans hrounded.bounds.2.2 hc.2⟩

/-- The rounded bounds of a gain lie between half a step and one. -/
def LoudFrom (low high : Binary64) : Prop :=
  0.025 ≤ Decimal.roundTo 3 low ∧ Decimal.roundTo 3 high ≤ 1

instance : Decidable (LoudFrom low high) := inferInstanceAs (Decidable (_ ∧ _))

theorem loud_of_between (h : Between low high x) (hc : LoudFrom low high) {l : Levels}
    (hl : l.gain = some (Decimal.roundTo 3 x)) : l.Loud := by
  intro g hg
  obtain rfl := Option.some.inj (hl.symm.trans hg)
  exact (h.roundTo 3).widen (by decide +kernel) hc

theorem steady_gain (x : Binary64) : (gain x).Steady := by simp [Levels.Steady, gain]

theorem fits_gain (h : Between low high x) (hc : LoudFrom low high) :
    Fits params id phase layer (gain x) :=
  ⟨.loud (loud_of_between h hc rfl), steady_gain x⟩

theorem fits_line (h : Between low high p)
    (hc : IsLine a b high ∧ LoudFrom (a + low * b) (a + high * b)) :
    Fits params id phase layer (gain (a + p * b)) := fits_gain (between_line h hc.1) hc.2

theorem fits_slowed (h : Between low high x) (h' : Between low' high' y)
    (hc : LoudFrom low high ∧ SteadyFrom low' high') :
    Fits params id phase layer (slowed x y) := by
  refine ⟨.loud (loud_of_between h hc.1 rfl), ?_⟩
  simpa [Levels.Steady, slowed] using steady_of_between h' hc.2

theorem fits_hastened (h : Between low high x) (h' : Between low' high' y)
    (hc : LoudFrom low high ∧ SteadyFrom low' high') :
    Fits params id phase layer (hastened x y) := by
  refine ⟨.loud (loud_of_between h hc.1 rfl), ?_⟩
  simpa [Levels.Steady, hastened] using steady_of_between h' hc.2

theorem Faint.between (h : Faint params id phase layer x) : Between 0 1 x := by
  cases h with
  | sparkle hair hmotion =>
    have ha := clamped_between hair (by decide +kernel)
    have hm := clamped_between hmotion (by decide +kernel)
    exact (between_plane ha hm (by decide +kernel)).widen (by decide +kernel) (by decide +kernel)
  | bass hmotion =>
    have hm := clamped_between hmotion (by decide +kernel)
    exact (between_line hm (by decide +kernel)).widen (by decide +kernel) (by decide +kernel)
  | texture hgrit =>
    have hg := clamped_between hgrit (by decide +kernel)
    exact (between_line hg (by decide +kernel)).widen (by decide +kernel) (by decide +kernel)
  | textureAlt hgrit =>
    have hg := clamped_between hgrit (by decide +kernel)
    exact (between_line hg (by decide +kernel)).widen (by decide +kernel) (by decide +kernel)

theorem fits_faint (h : Faint params id phase layer x) : Fits params id phase layer (gain x) :=
  ⟨.faint h, steady_gain x⟩

theorem lilts_of_none {a : Adjustments} (h : a.groove = none) : a.Lilts := by
  simp [Adjustments.Lilts, h]

theorem lilts_of_between {a : Adjustments} {subdivision : Binary64} {layers : Option (List String)}
    (ha : a.groove = some ⟨Decimal.roundTo 3 x, subdivision, layers⟩) (h : Between low high x)
    (hc : SteadyFrom low high ∧ (subdivision = 4 ∨ subdivision = 8)) : a.Lilts := by
  intro g hg
  obtain rfl := Option.some.inj (ha.symm.trans hg)
  exact ⟨steady_of_between h hc.1, hc.2⟩

theorem eq_muted_of_mem {options keep : List String} {e : String × Levels}
    (h : e ∈ muteUnselected options keep) : e.2 = muted := by
  refine List.foldlRecOn (motive := fun t => ∀ e ∈ t, e.2 = muted)
    (options.filter (!keep.contains ·)) _ (List.forall_mem_nil _) (fun t ht option _ => ?_) e h
  intro e he
  rcases Table.eq_or_mem_of_mem_put he with rfl | he
  · rfl
  · exact ht e he

theorem eq_muted_of_unless {kept : Prop} [Decidable kept] {e : String × Levels}
    (h : e ∈ (if kept then [] else [(layer, muted)] : Table Levels)) : e.2 = muted := by
  split at h
  · cases h
  · rw [List.mem_singleton.mp h]

theorem fits_muted {t : Table Levels} (ht : ∀ e ∈ t, e.2 = muted) (phase : String) :
    ∀ e ∈ t, Fits params id (some phase) e.1 e.2 := by
  intro e he
  rw [ht e he]
  exact ⟨.mute rfl, by simp [Levels.Steady, muted]⟩

theorem fits_muteUnselected (options keep : List String) (phase : String) :
    ∀ e ∈ muteUnselected options keep, Fits params id (some phase) e.1 e.2 :=
  fits_muted (fun _ => eq_muted_of_mem) phase

theorem fits_unless (kept : Prop) [Decidable kept] (layer phase : String) :
    ∀ e ∈ (if kept then [] else [(layer, muted)] : Table Levels),
      Fits params id (some phase) e.1 e.2 :=
  fits_muted (fun _ => eq_muted_of_unless) phase

end Entries

end Catalog
end PatternLoom
