import PatternLoom.Proofs.Midi.Cells

/-! How many names the pattern of a melodic track has. A pitch that comes twice on a step is
named once; where that does not happen every note of the track has its name. -/

namespace PatternLoom
namespace Midi

theorem length_distinctSorted {α : Type} [LinearOrder α] {lt : α → α → Bool}
    (h : ∀ a b, lt a b = true ↔ a < b) {xs : List α} (hxs : xs.Nodup) :
    (distinctSorted lt xs).length = xs.length := by
  have hsorted : (distinctSorted lt xs).Nodup :=
    (pairwise_distinctSorted h xs).imp fun hlt => hlt.ne
  exact ((List.perm_ext_iff_of_nodup hsorted hxs).mpr fun _ => mem_distinctSorted h).length_eq

theorem stepPitches_eq (total : Nat) (onsets : List (Nat × Int)) :
    stepPitches total onsets =
      (List.range total).map fun i => (onsets.filter (·.1 = i)).map (·.2) := by
  apply List.ext_getElem?
  intro i
  by_cases hi : i < total
  · rw [stepPitches_getElem? onsets hi]
    simp [hi]
  · have hlength := length_stepPitches total onsets
    rw [List.getElem?_eq_none (by omega), List.getElem?_eq_none (by simpa using hi)]

/-- Every onset is in one cell. -/
theorem length_flatten_stepPitches {total : Nat} {onsets : List (Nat × Int)}
    (h : ∀ onset ∈ onsets, onset.1 < total) :
    (stepPitches total onsets).flatten.length = onsets.length := by
  have hcount : ∀ i, ((onsets.filter (·.1 = i)).map (·.2)).length =
      (onsets.map Prod.fst : Multiset Nat).count i := by
    intro i
    rw [List.length_map, Multiset.coe_count, List.count_eq_countP, List.countP_map,
      List.countP_eq_length_filter]
    congr 2
  have hmem : ∀ i ∈ (onsets.map Prod.fst : Multiset Nat), i ∈ Finset.range total := by
    intro i hi
    obtain ⟨onset, honset, rfl⟩ := List.mem_map.mp (Multiset.mem_coe.mp hi)
    exact Finset.mem_range.mpr (h onset honset)
  rw [stepPitches_eq, List.length_flatten, List.map_map]
  calc ((List.range total).map (List.length ∘ fun i => (onsets.filter (·.1 = i)).map (·.2))).sum
      = ((List.range total).map fun i => (onsets.map Prod.fst : Multiset Nat).count i).sum := by
        exact congrArg List.sum (List.map_congr_left fun i _ => hcount i)
    _ = ∑ i ∈ Finset.range total, (onsets.map Prod.fst : Multiset Nat).count i := rfl
    _ = onsets.length := by
        rw [Multiset.sum_count_eq_card hmem, Multiset.coe_card, List.length_map]

theorem stepIndex_lt {total i : Nat} {step x : Binary64} (ht : 0 < total)
    (h : stepIndex total step x = .ok i) : i < total := by
  simp only [stepIndex, bind_eq_ok, pure_eq_ok] at h
  obtain ⟨_, _, k, _, rfl⟩ := h
  omega

/-- Two notes of a pitch begin on different steps. -/
def BeatNote.Apart (total : Nat) (step : Binary64) (a b : BeatNote) : Prop :=
  a.pitch = b.pitch → ∃ i j, stepIndex total step a.start = .ok i ∧
    stepIndex total step b.start = .ok j ∧ i ≠ j

theorem BeatNote.Apart.symm {total : Nat} {step : Binary64} {a b : BeatNote}
    (h : a.Apart total step b) : b.Apart total step a := by
  intro hpitch
  obtain ⟨i, j, hi, hj, hne⟩ := h hpitch.symm
  exact ⟨j, i, hj, hi, hne.symm⟩

section Onsets

variable {total : Nat} {step : Binary64} {notes : List BeatNote} {onsets : List (Nat × Int)}

theorem onsets_lt (ht : 0 < total)
    (h : (notes.mapM fun n => do return (← stepIndex total step n.start, n.pitch)) = .ok onsets) :
    ∀ onset ∈ onsets, onset.1 < total := by
  intro onset honset
  obtain ⟨n, _, hn⟩ := exists_of_forall₂_right (mapM_eq_ok.mp h) honset
  obtain ⟨i, hi, he⟩ := bind_eq_ok.mp hn
  obtain rfl := pure_eq_ok.mp he
  exact stepIndex_lt ht hi

theorem nodup_onsets
    (h : (notes.mapM fun n => do return (← stepIndex total step n.start, n.pitch)) = .ok onsets)
    (hapart : notes.Pairwise (BeatNote.Apart total step)) : onsets.Nodup := by
  refine pairwise_of_forall₂ (mapM_eq_ok.mp h) hapart fun a b c d hc hd hab hcd => ?_
  obtain ⟨i, hi, hci⟩ := bind_eq_ok.mp hc
  obtain ⟨j, hj, hdj⟩ := bind_eq_ok.mp hd
  obtain rfl := pure_eq_ok.mp hci
  obtain rfl := pure_eq_ok.mp hdj
  obtain ⟨hij, hpitch⟩ := Prod.mk.inj hcd
  obtain ⟨i', j', hi', hj', hne⟩ := hab hpitch
  obtain rfl := Except.ok.inj (hi.symm.trans hi')
  obtain rfl := Except.ok.inj (hj.symm.trans hj')
  exact hne hij

theorem nodup_pitches (h : onsets.Nodup) (i : Nat) :
    ((onsets.filter (·.1 = i)).map (·.2)).Nodup := by
  refine List.Nodup.map_on (fun a ha b hb hpitch => ?_) (h.filter _)
  have hai : a.1 = i := by simpa using (List.mem_filter.mp ha).2
  have hbi : b.1 = i := by simpa using (List.mem_filter.mp hb).2
  exact Prod.ext (hai.trans hbi.symm) hpitch

end Onsets

/-- A melodic track whose notes are apart has a name in its pattern for each of them. -/
theorem length_flatten_readPattern {t : BeatTrack} {bars : Int} {beatsPerBar : Quantity}
    {options : ImportOptions} {total : Nat} {step : Binary64} {tokens : List String}
    (hrole : t.role = .melodic)
    (htotal : totalSteps bars beatsPerBar options.division.atLeastOne = .ok total)
    (hstep : gridStep options.division.atLeastOne = .ok step)
    (hapart : t.notes.Pairwise (BeatNote.Apart total step))
    (h : stepTokens t bars beatsPerBar options = .ok tokens) :
    (readPattern (" ".intercalate tokens)).flatten.length = t.notes.length := by
  obtain ⟨total', step', onsets, htotal', hstep', honsets, hread⟩ := readPattern_stepTokens h
  obtain rfl := Except.ok.inj (htotal.symm.trans htotal')
  obtain rfl := Except.ok.inj (hstep.symm.trans hstep')
  have hlt := onsets_lt (totalSteps_pos htotal) honsets
  have hcell : ∀ pitches ∈ stepPitches total onsets,
      (cellMembers .melodic options.preferSharps pitches).length = pitches.length := by
    intro pitches hpitches
    rw [stepPitches_eq] at hpitches
    obtain ⟨i, _, rfl⟩ := List.mem_map.mp hpitches
    rw [cellMembers, List.length_map]
    exact length_distinctSorted (fun _ _ => decide_eq_true_iff)
      (nodup_pitches (nodup_onsets honsets hapart) i)
  have hnotes : onsets.length = t.notes.length := (mapM_eq_ok.mp honsets).length_eq.symm
  rw [hread, hrole, ← hnotes, ← length_flatten_stepPitches hlt, List.length_flatten,
    List.length_flatten, List.map_map]
  exact congrArg List.sum (List.map_congr_left hcell)

end Midi
end PatternLoom
