import PatternLoom.Proofs.Midi.Repair

/-! Repaired notes are at rest: repairing them again only puts them in order. A note that was moved
may have come behind later notes of other pitches, so the second pass meets the notes in another
order, but those of one pitch still stand one after the other. -/

namespace PatternLoom
namespace Midi

open Binary64

section Pitches

variable {minDuration : Binary64} {before notes ordered repaired : List BeatNote} {n r : BeatNote}

/-- Of two notes of a pitch the first one is over when the second one begins. -/
def BeatNote.Frees (a b : BeatNote) : Prop := a.pitch = b.pitch → a.stop ≤ b.start

/-- A note behind the last one of its pitch is behind all of them. -/
theorem frees_of_lastOf (hbefore : before.Pairwise BeatNote.Frees)
    (hlong : ∀ b ∈ before, b.start ≤ b.stop)
    (hlast : ∀ last, lastOf r.pitch before = some last → last.stop ≤ r.start) :
    ∀ b ∈ before, b.Frees r := by
  induction before using List.reverseRecOn with
  | nil => simp
  | append_singleton before last ih =>
    obtain ⟨hpairs, _, hlater⟩ := List.pairwise_append.mp hbefore
    obtain ⟨hlong, hlastLong⟩ := List.forall_mem_append.mp hlong
    rw [lastOf_concat] at hlast
    by_cases hpitch : last.pitch = r.pitch
    · rw [if_pos hpitch] at hlast
      have hend := hlast last rfl
      refine List.forall_mem_append.mpr ⟨fun b hb hsame => ?_,
        List.forall_mem_singleton.mpr fun _ => hend⟩
      have hnext := hlater b hb last (List.mem_singleton_self _) (hsame.trans hpitch.symm)
      have hover := hlastLong last (List.mem_singleton_self _)
      exact Binary64.le_trans (Binary64.le_trans hnext hover) hend
    · rw [if_neg hpitch] at hlast
      exact List.forall_mem_append.mpr ⟨ih hpairs hlong hlast,
        List.forall_mem_singleton.mpr fun hsame => absurd hsame hpitch⟩

theorem BeatNote.RepairedTo.duration_pos (hpos : 0 < minDuration)
    (h : n.RepairedTo minDuration before r) : 0 < r.duration := by
  rw [h.duration_eq]
  split
  · assumption
  · exact hpos

theorem RepairedInTurn.duration_pos (hpos : 0 < minDuration)
    (h : RepairedInTurn minDuration [] notes repaired) : ∀ r ∈ repaired, 0 < r.duration := by
  intro r hr
  obtain ⟨i, hi, rfl⟩ := List.mem_iff_getElem.mp hr
  have hn : i < notes.length := h.1 ▸ hi
  exact (h.2 i _ _ (List.getElem?_eq_getElem hn) (List.getElem?_eq_getElem hi)).duration_pos hpos

theorem RepairedInTurn.frees (hpos : 0 < minDuration)
    (h : RepairedInTurn minDuration [] notes repaired)
    (hfinite : ∀ r ∈ repaired, r.start.isFinite) : repaired.Pairwise BeatNote.Frees := by
  have hlong : ∀ r ∈ repaired, r.start ≤ r.stop := fun r hr =>
    le_add_of_pos (hfinite r hr) (h.duration_pos hpos r hr)
  -- The notes up to each place free each other, and so the one in that place.
  have hprefix : ∀ k, (repaired.take k).Pairwise BeatNote.Frees := by
    intro k
    induction k with
    | zero => exact .nil
    | succ k ih =>
      rcases lt_or_ge k repaired.length with hk | hk
      · have hn : k < notes.length := h.1 ▸ hk
        have hturn := h.2 k _ _ (List.getElem?_eq_getElem hn) (List.getElem?_eq_getElem hk)
        have hlast : ∀ last, lastOf repaired[k].pitch (repaired.take k) = some last →
            last.stop ≤ repaired[k].start := by
          rw [hturn.pitch_eq]
          exact hturn.stop_le
        rw [List.take_succ_eq_append_getElem hk]
        refine List.pairwise_append.mpr ⟨ih, List.pairwise_singleton _ _, fun b hb r hr => ?_⟩
        obtain rfl := List.mem_singleton.mp hr
        exact frees_of_lastOf ih (fun b hb => hlong b (List.mem_of_mem_take hb)) hlast b hb
      · rwa [List.take_of_length_le (by omega), ← List.take_of_length_le hk]
  have hall := hprefix repaired.length
  rwa [List.take_length] at hall

theorem pairwise_frees_iff : notes.Pairwise BeatNote.Frees ↔
    ∀ pitch, (notes.filter fun n => n.pitch = pitch).Pairwise fun a b => a.stop ≤ b.start := by
  simp only [List.pairwise_filter, decide_eq_true_eq]
  constructor
  · intro h pitch
    exact h.imp fun hfree ha hb => hfree (ha.trans hb.symm)
  · intro h
    rw [List.pairwise_iff_forall_sublist]
    intro a b hab hsame
    exact List.pairwise_iff_forall_sublist.mp (h b.pitch) hab hsame rfl

/-- What stands in order already stays as it is when the notes around it are sorted. -/
theorem StablyOrdered.filter_eq (h : StablyOrdered notes ordered) {p : BeatNote → Bool}
    (hp : (notes.filter p).Pairwise BeatNote.NotAfter) : ordered.filter p = notes.filter p := by
  have hkept := (h.stable _ List.filter_sublist hp).filter p
  simp only [List.filter_filter, Bool.and_self] at hkept
  exact (hkept.eq_of_length (h.perm.filter p).length_eq.symm).symm

theorem StablyOrdered.frees (h : StablyOrdered notes ordered) (hnotes : notes.Pairwise BeatNote.Frees)
    (hlong : ∀ n ∈ notes, n.start ≤ n.stop) (hfinite : ∀ n ∈ notes, n.start.isFinite) :
    ordered.Pairwise BeatNote.Frees := by
  rw [pairwise_frees_iff] at hnotes ⊢
  intro pitch
  rw [h.filter_eq]
  · exact hnotes pitch
  · refine (hnotes pitch).imp_of_mem fun ha hb hab => ?_
    obtain ⟨ha, hpitch⟩ := List.mem_filter.mp ha
    obtain ⟨hb, hpitch'⟩ := List.mem_filter.mp hb
    have hle := Binary64.le_trans (hlong _ ha) hab
    rw [BeatNote.NotAfter, lt_iff_value (hfinite _ ha) (hfinite _ hb),
      equal_iff_value (hfinite _ ha) (hfinite _ hb)]
    rw [le_iff_value (hfinite _ ha) (hfinite _ hb), le_iff_lt_or_eq] at hle
    have hsame := (of_decide_eq_true hpitch).trans (of_decide_eq_true hpitch').symm
    exact hle.imp_right fun he => ⟨he, hsame.le⟩

end Pitches

section Again

variable {minDuration : Binary64} {before notes : List BeatNote} {n : BeatNote}

theorem repairNote_of_free {ends : Ends} (hlong : 0 < n.duration)
    (hfree : ¬ n.start < (ends.lookup n.pitch).getD (.infinity true)) :
    repairNote minDuration ends n = (n, 0, n.stop) := by
  have hnonempty : ¬ n.duration ≤ 0 := fun h => not_lt_of_le h hlong
  rw [repairNote]
  simp only [if_neg hfree, if_neg hnonempty, ite_self]
  rfl

/-- Notes that each last and free each other are left as they are. -/
theorem repairFrom_of_frees (hfrees : (before ++ notes).Pairwise BeatNote.Frees)
    (hlong : ∀ n ∈ notes, 0 < n.duration) :
    repairFrom minDuration (endsOf before) notes = (notes, 0) := by
  induction notes generalizing before with
  | nil => rfl
  | cons n notes ih =>
    obtain ⟨hfirst, hrest⟩ := List.forall_mem_cons.mp hlong
    have hfree : ¬ n.start < ((endsOf before).lookup n.pitch).getD (.infinity true) := by
      rw [lookup_endsOf]
      cases hlast : lastOf n.pitch before with
      | none => exact not_lt_infinity _
      | some last =>
        obtain ⟨-, -, hlater⟩ := List.pairwise_append.mp hfrees
        exact not_lt_of_le (hlater last (mem_of_lastOf hlast) n List.mem_cons_self
          (pitch_of_lastOf hlast))
    have hnext : repairFrom minDuration (endsOf (before ++ [n])) notes = (notes, 0) :=
      ih (by rwa [List.append_assoc]) hrest
    rw [endsOf_concat] at hnext
    rw [repairFrom, repairNote_of_free hfirst hfree]
    dsimp only
    rw [hnext, zero_add]

/-- Repaired notes are repaired for good. A second pass makes no change, and leaves them as they are
but for their order. -/
theorem repairOverlaps_again (hpos : 0 < minDuration)
    (hfinite : ∀ n ∈ notes, n.start.isFinite ∧ n.duration.isFinite)
    (hrepaired : ∀ r ∈ (repairOverlaps notes minDuration).1, r.start.isFinite) :
    ∃ ordered, repairOverlaps (repairOverlaps notes minDuration).1 minDuration = (ordered, 0) ∧
      StablyOrdered (repairOverlaps notes minDuration).1 ordered := by
  have hsorted := stablyOrdered_sortNotes fun n hn => (hfinite n hn).1
  have hnone : ∀ r ∈ ([] : List BeatNote), r.stop.isNan = false := by simp
  obtain ⟨repaired, hrun, hturn⟩ := repairFrom_repaired hpos hnone
    fun n hn => hfinite n (hsorted.perm.mem_iff.mp hn)
  have hfirst : (repairOverlaps notes minDuration).1 = repaired := congrArg Prod.fst hrun
  rw [hfirst] at hrepaired ⊢
  have hlasting := hturn.duration_pos hpos
  have hlong : ∀ r ∈ repaired, r.start ≤ r.stop := fun r hr =>
    le_add_of_pos (hrepaired r hr) (hlasting r hr)
  have hagain := stablyOrdered_sortNotes hrepaired
  have hfrees : ([] ++ sortNotes repaired).Pairwise BeatNote.Frees :=
    hagain.frees (hturn.frees hpos hrepaired) hlong hrepaired
  exact ⟨sortNotes repaired, repairFrom_of_frees hfrees fun r hr =>
    hlasting r (hagain.perm.mem_iff.mp hr), hagain⟩

/-- A note that is moved behind one of another pitch, and one without length. -/
def overtaken : List BeatNote := [
  ⟨60, 0.5, 0, 2, none, none⟩, ⟨60, 0.75, 0.5, 1, none, none⟩, ⟨62, 0.5, 1, 0, none, none⟩]

theorem overtaken_starts : ∀ r ∈ (repairOverlaps overtaken 0.25).1, r.start.isFinite := by
  have hsorted : sortNotes overtaken = overtaken :=
    sortNotes_of_sorted (by decide +kernel) (by decide +kernel)
  rw [repairOverlaps, hsorted]
  decide +kernel

theorem overtaken_again : (∀ n ∈ overtaken, n.start.isFinite ∧ n.duration.isFinite) ∧
    (∀ r ∈ (repairOverlaps overtaken 0.25).1, r.start.isFinite) ∧
    ∃ ordered, repairOverlaps (repairOverlaps overtaken 0.25).1 0.25 = (ordered, 0) ∧
      StablyOrdered (repairOverlaps overtaken 0.25).1 ordered := by
  have hfinite : ∀ n ∈ overtaken, n.start.isFinite ∧ n.duration.isFinite := by decide +kernel
  exact ⟨hfinite, overtaken_starts,
    repairOverlaps_again (by decide +kernel) hfinite overtaken_starts⟩

end Again
end Midi
end PatternLoom
