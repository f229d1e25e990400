import Mathlib
import PatternLoom.Midi.Notice

/-! Notices that are collected by their codes. A notice that is added never stands beside one of
its own code, and the counts of a code add up, whatever is added in between. -/

namespace PatternLoom
namespace Midi
namespace Notice

/-- The counts of all notices of a code taken together. -/
def total (notices : List Notice) (code : String) : Int :=
  ((notices.filter (·.code = code)).map Notice.count).sum

/-- The count that the notices tell for a code, if they have one. -/
def told (notices : List Notice) (code : String) : Option Int :=
  (notices.find? (·.code = code)).map Notice.count

/-- A count as it is told: nothing is said of what did not happen. -/
def shown (count : Int) : Option Int := if count = 0 then none else some count

structure Collected (notices : List Notice) : Prop where
  codes_nodup : (notices.map Notice.code).Nodup
  count_pos : ∀ n ∈ notices, 0 < n.count

variable {notices others : List Notice} {n : Notice} {code : String}

theorem collected_nil : Collected [] := ⟨List.nodup_nil, nofun⟩

@[simp] theorem total_nil : total [] code = 0 := rfl

@[simp] theorem total_cons : total (n :: notices) code =
    (if n.code = code then n.count else 0) + total notices code := by
  by_cases h : n.code = code <;> simp [total, h]

@[simp] theorem total_append :
    total (notices ++ others) code = total notices code + total others code := by
  simp [total]

@[simp] theorem total_add :
    total (add notices n) code = total notices code + if n.code = code then n.count else 0 := by
  induction notices with
  | nil => simp [add]
  | cons m notices ih =>
    by_cases h : m.code = n.code
    · by_cases hcode : n.code = code
      · simp only [add, h, if_true, total_cons, hcode]
        omega
      · simp [add, h, hcode]
    · simp only [add, h, if_false, total_cons, ih]
      omega

theorem total_addAll :
    total (addAll notices others) code = total notices code + total others code := by
  induction others generalizing notices with
  | nil => simp [addAll]
  | cons n others ih =>
    have hrest := @ih (add notices n)
    simp only [addAll, List.foldl_cons, total_cons, total_add] at hrest ⊢
    omega

/-- A notice that is given only where its count is not zero counts in any case. -/
theorem total_given {p : Prop} [Decidable p] {count : Int} (hgiven : p → n.count = count)
    (hnone : ¬ p → count = 0) :
    total (if p then [n] else []) code = if n.code = code then count else 0 := by
  by_cases hp : p
  · simp [hp, hgiven hp]
  · simp [hp, hnone hp]

theorem codes_given_sublist (p : Prop) [Decidable p] (n : Notice) :
    ((if p then [n] else []).map Notice.code).Sublist [n.code] := by
  by_cases hp : p <;> simp [hp]

theorem count_pos_given {p : Prop} [Decidable p] (h : p → 0 < n.count) :
    ∀ m ∈ if p then [n] else [], 0 < m.count := by
  by_cases hp : p
  · simpa [hp] using h hp
  · simp [hp]

theorem mem_codes_add : code ∈ (add notices n).map Notice.code ↔
    code = n.code ∨ code ∈ notices.map Notice.code := by
  induction notices with
  | nil => simp [add]
  | cons m notices ih =>
    by_cases h : m.code = n.code
    · simp [add, h]
    · simp only [add, h, if_false, List.map_cons, List.mem_cons, ih]
      tauto

theorem Collected.add (h : Collected notices) (hn : 0 < n.count) : Collected (add notices n) := by
  induction notices with
  | nil => exact ⟨List.nodup_singleton _, by simpa [Notice.add] using hn⟩
  | cons m notices ih =>
    obtain ⟨hfresh, hnodup⟩ := List.nodup_cons.mp h.codes_nodup
    obtain ⟨hm, hpos⟩ := List.forall_mem_cons.mp h.count_pos
    by_cases hcode : m.code = n.code
    · rw [Notice.add, if_pos hcode]
      exact ⟨h.codes_nodup, List.forall_mem_cons.mpr ⟨add_pos hm hn, hpos⟩⟩
    · have hrest := ih ⟨hnodup, hpos⟩
      rw [Notice.add, if_neg hcode]
      refine ⟨List.nodup_cons.mpr ⟨?_, hrest.codes_nodup⟩,
        List.forall_mem_cons.mpr ⟨hm, hrest.count_pos⟩⟩
      exact mem_codes_add.not.mpr (not_or.mpr ⟨hcode, hfresh⟩)

theorem Collected.addAll (h : Collected notices) (hothers : ∀ n ∈ others, 0 < n.count) :
    Collected (addAll notices others) := by
  induction others generalizing notices with
  | nil => exact h
  | cons n others ih =>
    obtain ⟨hn, hothers⟩ := List.forall_mem_cons.mp hothers
    exact ih (h.add hn) hothers

theorem total_eq_zero (h : code ∉ notices.map Notice.code) : total notices code = 0 := by
  have hnone : notices.filter (·.code = code) = [] := by
    rw [List.filter_eq_nil_iff]
    intro n hn
    simpa using fun hcode : n.code = code => h (hcode ▸ List.mem_map_of_mem hn)
  rw [total, hnone, List.map_nil, List.sum_nil]

/-- Collected notices tell the whole count of every code, and have no notice where it is zero. -/
theorem Collected.told_eq (h : Collected notices) (code : String) :
    told notices code = shown (total notices code) := by
  induction notices with
  | nil => rfl
  | cons m notices ih =>
    obtain ⟨hfresh, hnodup⟩ := List.nodup_cons.mp h.codes_nodup
    obtain ⟨hm, hpos⟩ := List.forall_mem_cons.mp h.count_pos
    by_cases hcode : m.code = code
    · have hrest : total notices code = 0 := total_eq_zero (hcode ▸ hfresh)
      simp [told, shown, hcode, hrest, hm.ne']
    · have hrest := ih ⟨hnodup, hpos⟩
      simpa [told, hcode] using hrest

end Notice
end Midi
end PatternLoom
