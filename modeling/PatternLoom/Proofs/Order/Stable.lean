import Mathlib
import PatternLoom.Order

/-! Stable sorting by a key. Sorting keeps every part of a list that is in order already, so it
does not touch the order within a class of elements that stand in order among themselves. -/

namespace PatternLoom

variable {α κ : Type} [LinearOrder κ] {key : α → κ} {xs ys : List α}

/-- A list in ascending order of a key, elements of one key in the order of before. -/
structure StablySortedBy (key : α → κ) (xs ys : List α) : Prop where
  perm : ys.Perm xs
  sorted : ys.Pairwise fun a b => key a ≤ key b
  stable : ∀ part : List α, part.Sublist xs → (part.Pairwise fun a b => key a ≤ key b) →
    part.Sublist ys

theorem stablySortedBy_mergeSort {le : α → α → Bool}
    (h : ∀ a ∈ xs, ∀ b ∈ xs, le a b = decide (key a ≤ key b)) :
    StablySortedBy key xs (xs.mergeSort le) := by
  have hsort : xs.mergeSort le = xs.mergeSort fun a b => decide (key a ≤ key b) := by
    have hcongr := List.map_mergeSort (r := le) (s := fun a b => decide (key a ≤ key b)) (f := id) h
    rwa [List.map_id, List.map_id] at hcongr
  have htrans : ∀ a b c : α, decide (key a ≤ key b) → decide (key b ≤ key c) →
      decide (key a ≤ key c) := by
    intro a b c hab hbc
    exact decide_eq_true ((of_decide_eq_true hab).trans (of_decide_eq_true hbc))
  have htotal : ∀ a b : α, decide (key a ≤ key b) || decide (key b ≤ key a) := by
    intro a b
    simpa using le_total (key a) (key b)
  rw [hsort]
  refine ⟨List.mergeSort_perm _ _, ?_, fun part hpart hsorted => ?_⟩
  · exact (List.pairwise_mergeSort htrans htotal xs).imp of_decide_eq_true
  · exact List.sublist_mergeSort htrans htotal (hsorted.imp decide_eq_true) hpart

end PatternLoom
