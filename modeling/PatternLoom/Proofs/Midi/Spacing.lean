import PatternLoom.Proofs.Binary64.Order
import PatternLoom.Proofs.Midi.GridSteps
import PatternLoom.Proofs.Midi.PitchName
import PatternLoom.Proofs.Midi.Playing

/-! The repaired notes of a track. None begins before zero or is shorter than a step of the
grid, and none begins before the notes of its pitch that come earlier have ended. -/

namespace PatternLoom
namespace Midi

open Binary64

/-- A note that does not begin before zero and lasts for a step or longer. -/
structure BeatNote.Lasting (step : Binary64) (n : BeatNote) : Prop where
  start : n.start.Unsigned
  duration : n.duration.Unsigned
  finite : n.duration.isFinite
  step_le : step.value ≤ n.duration.value

/-- Of two notes of a pitch the first one ends before the second one begins. -/
def BeatNote.Clears (a b : BeatNote) : Prop := a.pitch = b.pitch → a.stop.value ≤ b.start.value

/-- Ends of notes, the last one first, of which none of a pitch is after the last one. -/
structure Ends.Rising (ends : Ends) : Prop where
  unsigned : ∀ e ∈ ends, e.2.Unsigned
  finite : ∀ e ∈ ends, e.2.isFinite
  pairwise : ends.Pairwise fun later earlier =>
    later.1 = earlier.1 → earlier.2.value ≤ later.2.value

section Repair

variable {step : Binary64} {ends : Ends} {n : BeatNote} {notes : List BeatNote}

theorem BeatNote.Lasting.not_empty (h : n.Lasting step) (hstep : 0 < step.value) :
    ¬ n.duration ≤ 0 := by
  rw [le_iff_value h.finite isFinite_zero, value_zero, not_le]
  exact hstep.trans_le h.step_le

theorem BeatNote.Lasting.stop_unsigned (h : n.Lasting step) : n.stop.Unsigned :=
  h.start.add h.duration

theorem BeatNote.Lasting.start_le_stop (h : n.Lasting step) (hf : n.stop.isFinite) :
    n.start.isFinite ∧ n.start.value ≤ n.stop.value := by
  have hstart := (h.start.isFinite_of_add h.duration hf).1
  exact ⟨hstart, le_value_add h.start h.duration hstart h.finite hf⟩

/-- A note begins where it did, unless that is before the last end of its pitch, and then it
begins there. -/
theorem repairNote_spec (hn : ¬ n.duration ≤ 0) :
    (repairNote step ends n).1.pitch = n.pitch ∧
      (repairNote step ends n).1.duration = n.duration ∧
      (repairNote step ends n).2.2 = (repairNote step ends n).1.stop ∧
      ((repairNote step ends n).1.start = n.start ∧
          (∀ stop, ends.lookup n.pitch = some stop → ¬ n.start < stop) ∨
        ends.lookup n.pitch = some (repairNote step ends n).1.start) := by
  unfold repairNote
  dsimp only
  by_cases hmoved : n.start < (ends.lookup n.pitch).getD (.infinity true)
  · cases hlast : ends.lookup n.pitch with
    | none =>
      rw [hlast] at hmoved
      exact absurd hmoved (not_lt_infinity _)
    | some stop =>
      rw [hlast, Option.getD_some] at hmoved
      rw [Option.getD_some, if_pos hmoved, if_neg hn, equal_eq_false_of_lt hmoved, Bool.false_and,
        if_neg Bool.false_ne_true]
      exact ⟨rfl, rfl, rfl, .inr rfl⟩
  · rw [if_neg hmoved, if_neg hn, ite_self]
    refine ⟨rfl, rfl, rfl, .inl ⟨rfl, fun stop hlast => ?_⟩⟩
    rwa [hlast] at hmoved

theorem repairNote_lasting (hstep : 0 < step.value) (hends : ∀ e ∈ ends, e.2.Unsigned)
    (hn : n.Lasting step) : (repairNote step ends n).1.Lasting step := by
  obtain ⟨-, hduration, -, hstart⟩ := @repairNote_spec step ends n (hn.not_empty hstep)
  refine ⟨?_, by rw [hduration]; exact hn.duration, by rw [hduration]; exact hn.finite,
    by rw [hduration]; exact hn.step_le⟩
  rcases hstart with ⟨hkept, -⟩ | hlast
  · rw [hkept]
    exact hn.start
  · obtain ⟨e, he, hvalue⟩ := List.mem_map.mp (mem_of_lookup hlast)
    rw [← hvalue]
    exact hends e he

theorem repairFrom_lasting (hstep : 0 < step.value) (hends : ∀ e ∈ ends, e.2.Unsigned)
    (hn : ∀ n ∈ notes, n.Lasting step) : ∀ r ∈ (repairFrom step ends notes).1, r.Lasting step := by
  induction notes generalizing ends with
  | nil => simp [repairFrom]
  | cons n notes ih =>
    obtain ⟨hfirst, hrest⟩ := List.forall_mem_cons.mp hn
    have hlasting := repairNote_lasting hstep hends hfirst
    obtain ⟨-, -, hstop, -⟩ := @repairNote_spec step ends n (hfirst.not_empty hstep)
    rw [repairFrom]
    refine List.forall_mem_cons.mpr ⟨hlasting, ih (List.forall_mem_cons.mpr ⟨?_, hends⟩) hrest⟩
    rw [hstop]
    exact hlasting.stop_unsigned

/-- Where ends rise, the end that is looked up is after all others of its pitch. -/
theorem Ends.Rising.le_lookup (h : ends.Rising) {e : Int × Binary64} (he : e ∈ ends) :
    ∃ stop, ends.lookup e.1 = some stop ∧ stop.isFinite ∧ e.2.value ≤ stop.value := by
  obtain ⟨-, hfinite, hpairwise⟩ := h
  induction ends with
  | nil => cases he
  | cons last ends ih =>
    obtain ⟨hlast, hends⟩ := List.pairwise_cons.mp hpairwise
    obtain ⟨hlastFinite, hendsFinite⟩ := List.forall_mem_cons.mp hfinite
    by_cases hpitch : last.1 = e.1
    · refine ⟨last.2, ?_, hlastFinite, ?_⟩
      · rw [List.lookup_cons, beq_iff_eq.mpr hpitch.symm]
      · rcases List.mem_cons.mp he with rfl | he
        · exact le_rfl
        · exact hlast e he hpitch
    · have hne : (e.1 == last.1) = false := beq_false_of_ne (Ne.symm hpitch)
      rw [List.lookup_cons, hne]
      refine ih ?_ hendsFinite hends
      rcases List.mem_cons.mp he with rfl | he
      · exact absurd rfl hpitch
      · exact he

/-- A repaired note that ends begins after all earlier ends of its pitch, and ends after them. -/
theorem repairNote_rising (hstep : 0 < step.value) (hends : ends.Rising) (hn : n.Lasting step)
    (hf : (repairNote step ends n).1.stop.isFinite) :
    (∀ e ∈ ends, e.1 = n.pitch → e.2.value ≤ (repairNote step ends n).1.start.value) ∧
      Ends.Rising ((n.pitch, (repairNote step ends n).1.stop) :: ends) := by
  have hlasting := repairNote_lasting hstep hends.unsigned hn
  obtain ⟨-, -, -, hstart⟩ := @repairNote_spec step ends n (hn.not_empty hstep)
  obtain ⟨hstartFinite, hle⟩ := hlasting.start_le_stop hf
  have hafter : ∀ e ∈ ends, e.1 = n.pitch →
      e.2.value ≤ (repairNote step ends n).1.start.value := by
    intro e he hpitch
    obtain ⟨stop, hlast, hstopFinite, hlate⟩ := hends.le_lookup he
    rw [hpitch] at hlast
    refine hlate.trans ?_
    rcases hstart with ⟨hkept, hnot⟩ | hmoved
    · rw [hkept] at hstartFinite ⊢
      exact not_lt.mp fun hlt => hnot stop hlast ((lt_iff_value hstartFinite hstopFinite).mpr hlt)
    · rw [Option.some.inj (hlast.symm.trans hmoved)]
  refine ⟨hafter, List.forall_mem_cons.mpr ⟨hlasting.stop_unsigned, hends.unsigned⟩,
    List.forall_mem_cons.mpr ⟨hf, hends.finite⟩, List.pairwise_cons.mpr ⟨?_, hends.pairwise⟩⟩
  intro e he hpitch
  exact (hafter e he hpitch.symm).trans hle

theorem repairFrom_clears (hstep : 0 < step.value) (hends : ends.Rising)
    (hn : ∀ n ∈ notes, n.Lasting step)
    (hf : ∀ r ∈ (repairFrom step ends notes).1, r.stop.isFinite) :
    (repairFrom step ends notes).1.Pairwise BeatNote.Clears ∧
      ∀ e ∈ ends, ∀ r ∈ (repairFrom step ends notes).1, e.1 = r.pitch →
        e.2.value ≤ r.start.value := by
  -- The ends in hand rise, and a repaired note puts its own in front of them.
  induction notes generalizing ends with
  | nil => simp [repairFrom]
  | cons n notes ih =>
    obtain ⟨hfirst, hrest⟩ := List.forall_mem_cons.mp hn
    obtain ⟨hpitch, -, hstop, -⟩ := @repairNote_spec step ends n (hfirst.not_empty hstep)
    rw [repairFrom] at hf ⊢
    obtain ⟨hfirstFinite, hrestFinite⟩ := List.forall_mem_cons.mp hf
    obtain ⟨hafter, hrising⟩ := repairNote_rising hstep hends hfirst hfirstFinite
    rw [← hstop] at hrising
    obtain ⟨hclears, hlater⟩ := ih hrising hrest hrestFinite
    obtain ⟨hnext, hall⟩ := List.forall_mem_cons.mp hlater
    refine ⟨List.pairwise_cons.mpr ⟨fun r hr hsame => ?_, hclears⟩, fun e he => ?_⟩
    · rw [← hstop]
      exact hnext r hr (hpitch.symm.trans hsame)
    · refine List.forall_mem_cons.mpr ⟨fun hsame => hafter e he (hsame.trans hpitch), hall e he⟩

end Repair

/-- Notes that last, and clear each other if they all end. -/
structure Spaced (step : Binary64) (notes : List BeatNote) : Prop where
  lasting : ∀ n ∈ notes, n.Lasting step
  clears : (∀ n ∈ notes, n.stop.isFinite) → notes.Pairwise BeatNote.Clears

section Gathering

variable {step : Binary64} {ticksPerBeat : Int}

theorem unsigned_ofQuotient {m n : Int} {x : Binary64} (hm : 0 ≤ m) (hn : 0 < n)
    (h : ofQuotient m n = .ok x) : x.Unsigned := by
  obtain ⟨a, rfl⟩ := Int.eq_ofNat_of_zero_le hm
  obtain ⟨b, rfl⟩ := Int.eq_ofNat_of_zero_le hn.le
  exact (isRounding_ofQuotient (by omega) h).unsigned

/-- A note of a file begins at a tick that is not negative and lasts for some ticks. -/
def TickNote.Sounds (n : TickNote) : Prop := 0 ≤ n.start ∧ 0 < n.duration

theorem TickNote.Sounds.lasting {n : TickNote} {b : BeatNote} (h : n.Sounds)
    (hticks : 0 < ticksPerBeat) (hs : step.Unsigned) (hsf : step.isFinite)
    (hb : n.inBeats ticksPerBeat step = .ok b) : b.Lasting step := by
  simp only [inBeats, bind_eq_ok, pure_eq_ok] at hb
  obtain ⟨start, hstart, duration, hduration, rfl⟩ := hb
  have hfinite := isFinite_larger hsf (isFinite_of_ofQuotient hduration)
  exact ⟨unsigned_ofQuotient h.1 hticks hstart, hs.larger, hfinite, le_value_larger hsf hfinite⟩

theorem TickTrack.inBeats_spaced {t : TickTrack} {b : BeatTrack} {changes : Nat}
    (hticks : 0 < ticksPerBeat) (hs : step.Unsigned) (hsf : step.isFinite) (hpos : 0 < step.value)
    (ht : ∀ n ∈ t.notes, n.Sounds) (h : t.inBeats ticksPerBeat step = .ok (b, changes)) :
    Spaced step b.notes := by
  simp only [inBeats, bind_eq_ok, pure_eq_ok] at h
  obtain ⟨notes, hnotes, hb⟩ := h
  have hlasting : ∀ n ∈ notes, n.Lasting step := by
    intro n hn
    obtain ⟨m, hm, hbeat⟩ := exists_of_forall₂_right (mapM_eq_ok.mp hnotes) hn
    exact (ht m hm).lasting hticks hs hsf hbeat
  obtain ⟨rfl, _⟩ := Prod.mk.inj hb
  have hsorted := sortNotes_perm fun n hn => (hlasting n hn).start.1
  have hlasting' : ∀ n ∈ sortNotes notes, n.Lasting step :=
    fun n hn => hlasting n (hsorted.mem_iff.mp hn)
  exact ⟨repairFrom_lasting hpos (by simp) hlasting',
    fun hf => (repairFrom_clears hpos ⟨by simp, by simp, .nil⟩ hlasting' hf).1⟩

/-- Every track in beats is spaced, whatever the notes of the score are. -/
theorem Score.inBeats_spaced {score : Score} {filename : String} {options : ImportOptions}
    {beats : BeatScore} {notices : List Notice} {reports : List TrackReport}
    (hs : step.Unsigned) (hpos : 0 < step.value) (hstep : gridStep options.division = .ok step)
    (hsounds : ∀ t ∈ score.tracks, ∀ n ∈ t.notes, n.Sounds)
    (h : score.inBeats filename options = .ok (beats, notices, reports)) :
    ∀ t ∈ beats.tracks, Spaced step t.notes := by
  obtain ⟨_, hstep', hsf⟩ := gridStep_eq_ok options.division
  obtain rfl := Except.ok.inj (hstep.symm.trans hstep')
  simp only [inBeats, bind_eq_ok, pure_eq_ok] at h
  obtain ⟨_, hchecked, _, _, _, _, _, hstep'', gathered, hgather, _, _, _, _, hscore⟩ := h
  obtain ⟨rfl, -, -⟩ := hscore
  obtain rfl := Except.ok.inj (hstep'.symm.trans hstep'')
  have hticks : 0 < score.ticksPerBeat := by
    by_contra hnot
    rw [checkTicks, if_pos (by omega)] at hchecked
    cases hchecked
  intro b hb
  obtain ⟨t, ht, changes, hbeats⟩ := gather_mem hgather b hb
  exact TickTrack.inBeats_spaced hticks hs hsf hpos (hsounds t (List.mem_of_mem_take ht)) hbeats

end Gathering

end Midi
end PatternLoom
