import Mathlib
import PatternLoom.Order

/-! Sorting keeps every element, also where keys compare with nothing. A merge only moves
elements from its two runs, and a pile of runs only joins them. -/

namespace PatternLoom
namespace Order

variable {α : Type} {lt : α → α → Bool}

section Runs

theorem bisect_le {p : α → Bool} {xs : Array α} {low high : Nat} (h : low ≤ high) :
    bisect p xs low high ≤ high := by
  fun_induction bisect p xs low high with
  | case1 low high hlt middle _ ih => exact ih (by omega)
  | case2 low high hlt middle _ ih => exact (ih (by omega)).trans (by omega)
  | case3 low high _ => exact h

theorem insertSorted_perm (run : Array α) (x : α) :
    (insertSorted lt run x).toList.Perm (x :: run.toList) := by
  have hle := @bisect_le _ (fun y => !lt x y) run 0 run.size (Nat.zero_le _)
  rw [insertSorted, Array.insertIdxIfInBounds, dif_pos hle, Array.toList_insertIdx]
  exact List.perm_insertIdx x run.toList hle

theorem foldl_insertSorted_perm (run : Array α) (xs : List α) :
    (xs.foldl (insertSorted lt) run).toList.Perm (run.toList ++ xs) := by
  induction xs generalizing run with
  | nil => simp
  | cons x xs ih =>
    have hstep : ((insertSorted lt run x).toList ++ xs).Perm (x :: run.toList ++ xs) :=
      (insertSorted_perm run x).append_right xs
    exact (ih _).trans (hstep.trans List.perm_middle.symm)

theorem splitRun_perm (xs : List α) : ((splitRun lt xs).1 ++ (splitRun lt xs).2).Perm xs := by
  fun_cases splitRun lt xs with
  | case1 => exact .refl _
  | case2 x => exact .refl _
  | case3 x y rest falling n run =>
    have hrun : (if falling then run.reverse else run).Perm run := by
      split
      · exact List.reverse_perm _
      · exact .refl _
    have hparts : run ++ (x :: y :: rest).drop n = x :: y :: rest := List.take_append_drop _ _
    have hperm := hrun.append_right ((x :: y :: rest).drop n)
    rwa [hparts] at hperm

theorem splitRun_ne_nil {xs : List α} (h : xs ≠ []) : (splitRun lt xs).1 ≠ [] := by
  fun_cases splitRun lt xs with
  | case1 => exact absurd rfl h
  | case2 x => exact List.cons_ne_nil _ _
  | case3 x y rest falling n run =>
    have hrun : run ≠ [] := by simp [run, n]
    dsimp only
    split
    · simpa using hrun
    · exact hrun

theorem leadingRun_perm (least : Nat) (xs : List α) :
    ((leadingRun lt least xs).1 ++ (leadingRun lt least xs).2).Perm xs := by
  have hsplit := @splitRun_perm _ lt xs
  unfold leadingRun
  generalize splitRun lt xs = parts at hsplit ⊢
  obtain ⟨run, rest⟩ := parts
  have hrun := @foldl_insertSorted_perm _ lt run.toArray (rest.take (least - run.length))
  have hperm := hrun.append_right (rest.drop (least - run.length))
  rw [List.append_assoc, List.take_append_drop] at hperm
  exact hperm.trans hsplit

theorem leadingRun_ne_nil (least : Nat) {xs : List α} (h : xs ≠ []) :
    (leadingRun lt least xs).1 ≠ [] := by
  have hsplit := @splitRun_ne_nil _ lt xs h
  unfold leadingRun
  generalize splitRun lt xs = parts at hsplit ⊢
  obtain ⟨run, rest⟩ := parts
  have hrun := @foldl_insertSorted_perm _ lt run.toArray (rest.take (least - run.length))
  intro hnil
  dsimp only at hnil hsplit
  rw [hnil] at hrun
  exact hsplit (List.append_eq_nil_iff.mp hrun.nil_eq.symm).1

end Runs

namespace Merging

/-- All elements of a merge. -/
def elements (m : Merging α) : List α := m.moved ++ (m.kept ++ m.other)

variable {d : Direction α}

theorem moveKept_perm (m : Merging α) (n : Nat) : (m.moveKept n).elements.Perm m.elements := by
  have hparts : (m.kept.take n : Multiset α) + m.kept.drop n = m.kept := by
    rw [Multiset.coe_add, List.take_append_drop]
  rw [← Multiset.coe_eq_coe]
  simp only [elements, moveKept, ← Multiset.coe_add, Multiset.coe_reverse, ← hparts]
  abel

theorem moveOther_perm (m : Merging α) (n : Nat) : (m.moveOther n).elements.Perm m.elements := by
  have hparts : (m.other.take n : Multiset α) + m.other.drop n = m.other := by
    rw [Multiset.coe_add, List.take_append_drop]
  rw [← Multiset.coe_eq_coe]
  simp only [elements, moveOther, ← Multiset.coe_add, Multiset.coe_reverse, ← hparts]
  abel

theorem stretchKept_perm (m : Merging α) : (m.stretchKept d).1.elements.Perm m.elements := by
  unfold stretchKept
  split
  · exact .refl _
  · dsimp only
    split
    · exact moveKept_perm m _
    · exact (moveOther_perm _ 1).trans (moveKept_perm m _)

theorem stretchOther_perm (m : Merging α) : (m.stretchOther d).1.elements.Perm m.elements := by
  unfold stretchOther
  split
  · exact .refl _
  · dsimp only
    split
    · exact moveOther_perm m _
    · exact (moveKept_perm _ 1).trans (moveOther_perm m _)

theorem round_perm (m : Merging α) : (m.round d).1.elements.Perm m.elements := by
  cases hstart : d.keptStarts with
  | true =>
    have hfirst := @stretchKept_perm _ d m
    simp only [round, hstart, if_true]
    split
    · exact hfirst
    · exact (stretchOther_perm _).trans hfirst
  | false =>
    have hfirst := @stretchOther_perm _ d m
    simp only [round, hstart, Bool.false_eq_true, if_false]
    split
    · exact hfirst
    · exact (stretchKept_perm _).trans hfirst

theorem steps_perm (m : Merging α) (wins : Option (Nat × Nat)) (fuel : Nat) :
    (m.steps d wins fuel).elements.Perm m.elements := by
  induction fuel generalizing m wins with
  | zero => exact .refl _
  | succ fuel ih =>
    by_cases hover : m.isOver
    · cases wins <;> rw [steps, if_pos hover]
    · cases wins with
      | none =>
        have hround := @round_perm _ d
          { m with patience := m.patience - if 1 < m.patience then 1 else 0 }
        rw [steps, if_neg hover]
        dsimp only
        generalize round d
          { m with patience := m.patience - if 1 < m.patience then 1 else 0 } = after at hround ⊢
        split
        · exact (ih _ _).trans hround
        · exact (ih _ _).trans hround
      | some wins =>
        have hnext : ∀ (other stretches : Bool) (wins : Nat × Nat),
            let moved := if other then m.moveOther 1 else m.moveKept 1
            (if stretches then steps d { moved with patience := moved.patience + 1 } none fuel
              else steps d moved (some wins) fuel).elements.Perm m.elements := by
          intro other stretches wins moved
          have hmoved : moved.elements.Perm m.elements := by
            cases other with
            | false => exact moveKept_perm m 1
            | true => exact moveOther_perm m 1
          cases stretches with
          | false => exact (ih _ _).trans hmoved
          | true => exact (ih _ _).trans hmoved
        rw [steps, if_neg hover]
        exact hnext _ _ _

theorem result_perm (m : Merging α) : m.result.Perm m.elements := by
  unfold result
  refine (List.reverse_perm m.moved).append ?_
  split
  · rename_i last hkept
    rw [hkept]
    exact List.perm_append_comm
  · exact .refl _

theorem run_perm (kept other : List α) (patience : Nat) :
    (run d kept other patience).1.Perm (kept ++ other) := by
  have hsteps := @steps_perm _ d ({ kept, other, patience : Merging α }.moveOther 1) (some (0, 0))
    (kept.length + other.length)
  exact (result_perm _).trans (hsteps.trans (moveOther_perm _ 1))

end Merging

/-- What stands at the outer ends of two runs stays when the rest of them is merged. -/
theorem between_perm {xs ys merged : List α} {m n : Nat}
    (h : merged.Perm (xs.drop m ++ ys.take n)) :
    (xs.take m ++ merged ++ ys.drop n).Perm (xs ++ ys) := by
  have hxs : (xs.take m : Multiset α) + xs.drop m = xs := by
    rw [Multiset.coe_add, List.take_append_drop]
  have hys : (ys.take n : Multiset α) + ys.drop n = ys := by
    rw [Multiset.coe_add, List.take_append_drop]
  rw [← Multiset.coe_eq_coe] at h ⊢
  simp only [← Multiset.coe_add] at h ⊢
  rw [h, ← hxs, ← hys]
  abel

theorem mergeRuns_perm (patience : Nat) (xs ys : List α) :
    (mergeRuns lt patience xs ys).1.Perm (xs ++ ys) := by
  unfold mergeRuns
  split
  · rw [List.append_nil]
  · dsimp only
    split
    · exact .refl _
    · split
      · exact .refl _
      · split
        · exact between_perm (Merging.run_perm _ _ _)
        · refine between_perm ((List.reverse_perm _).trans ((Merging.run_perm _ _ _).trans ?_))
          rw [← List.reverse_append]
          exact List.reverse_perm _

namespace Pile

/-- The elements of all runs of a pile. -/
def elements (runs : List (PlacedRun α)) : List α := runs.flatMap PlacedRun.items

theorem joined_perm {items : List α} {last second : PlacedRun α} (rest : List (PlacedRun α))
    (h : items.Perm (second.items ++ last.items)) :
    (elements ({ second with items := items } :: rest)).Perm
      (elements (last :: second :: rest)) := by
  simp only [elements, List.flatMap_cons, ← List.append_assoc]
  exact (h.trans List.perm_append_comm).append_right _

theorem settle_perm (depth patience : Nat) (runs : List (PlacedRun α)) :
    (elements (settle lt depth patience runs).runs).Perm (elements runs) := by
  fun_induction settle lt depth patience runs with
  | case1 => exact .refl _
  | case2 => exact .refl _
  | case3 patience last second rest hdepth items after hmerge ih =>
    have hitems := @mergeRuns_perm _ lt patience second.items last.items
    rw [hmerge] at hitems
    exact ih.trans (joined_perm rest hitems)
  | case4 => exact .refl _

theorem add_perm (n start : Nat) (items : List α) (pile : Pile α) :
    (elements (pile.add lt n start items).runs).Perm (elements pile.runs ++ items) := by
  unfold add
  split
  · rename_i hruns
    rw [hruns]
    simp [elements]
  · dsimp only
    rw [elements, List.flatMap_cons]
    exact List.perm_append_comm.trans ((settle_perm _ _ _).append_right items)

theorem collapse_perm (patience : Nat) (runs : List (PlacedRun α)) :
    (collapse lt patience runs).Perm (elements runs) := by
  fun_induction collapse lt patience runs with
  | case1 => exact .refl _
  | case2 patience only => simp [elements]
  | case3 patience last second =>
    have hitems := @mergeRuns_perm _ lt patience second.items last.items
    simpa [elements] using hitems.trans List.perm_append_comm
  | case4 patience last second third rest _ items after hmerge ih =>
    have hitems := @mergeRuns_perm _ lt patience third.items second.items
    rw [hmerge] at hitems
    have hjoined := joined_perm rest hitems
    refine ih.trans ?_
    rw [elements, List.flatMap_cons, elements, List.flatMap_cons]
    exact hjoined.append_left _
  | case5 patience last second third rest _ items after hmerge ih =>
    have hitems := @mergeRuns_perm _ lt patience second.items last.items
    rw [hmerge] at hitems
    exact ih.trans (joined_perm (third :: rest) hitems)

end Pile

/-- Each run that is taken has an element at least, so the runs use up the list. -/
theorem pileUp_perm (n start : Nat) (pile : Pile α) {xs : List α} {fuel : Nat}
    (h : xs.length ≤ fuel) :
    (Pile.elements (pileUp lt n start pile xs fuel).runs).Perm (Pile.elements pile.runs ++ xs) := by
  induction fuel generalizing start pile xs with
  | zero =>
    obtain rfl := List.eq_nil_of_length_eq_zero (Nat.le_zero.mp h)
    rw [List.append_nil]
    exact .refl _
  | succ fuel ih =>
    rw [pileUp]
    split
    · rename_i hempty
      rw [List.isEmpty_iff.mp hempty, List.append_nil]
    · rename_i hne
      have hrun := @leadingRun_ne_nil _ lt (leastRun 0 n) xs (by simpa using hne)
      have hparts := @leadingRun_perm _ lt (leastRun 0 n) xs
      generalize leadingRun lt (leastRun 0 n) xs = parts at hrun hparts ⊢
      obtain ⟨run, rest⟩ := parts
      have hlength : run.length + rest.length = xs.length := by
        rw [← List.length_append, hparts.length_eq]
      have hpos : 0 < run.length := List.length_pos_iff.mpr hrun
      have hrest := @ih (start + run.length) (pile.add lt n start run) rest (by omega)
      have hadd := (@Pile.add_perm _ lt n start run pile).append_right rest
      rw [List.append_assoc] at hadd
      exact hrest.trans (hadd.trans (hparts.append_left _))

theorem sortByRuns_perm (xs : List α) : (sortByRuns lt xs).Perm xs := by
  have hpile := @pileUp_perm _ lt xs.length 0 {} xs _ le_rfl
  exact (Pile.collapse_perm _ _).trans hpile

end Order

/-- Sorting keeps every element, whether or not all have a place in the order. -/
theorem sortBy_perm {α : Type} (lt : α → α → Bool) (hasPlace : α → Bool) (xs : List α) :
    (sortBy lt hasPlace xs).Perm xs := by
  unfold sortBy
  split
  · exact List.mergeSort_perm _ _
  · exact Order.sortByRuns_perm xs

end PatternLoom
