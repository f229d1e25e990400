import PatternLoom.Proofs.Midi.Conservation
import PatternLoom.Proofs.Midi.Escape

/-! When the times of a score can be measured. Ticks have to become finite numbers of beats,
beats numbers of steps, and both lengths of the piece numbers of bars. -/

namespace PatternLoom
namespace Midi

/-- The times of a note are finite in beats. -/
def TickNote.InRange (n : TickNote) (ticksPerBeat : Int) : Prop :=
  n.start.natAbs * unitsPerOne < overflow * ticksPerBeat.natAbs ∧
    n.duration.natAbs * unitsPerOne < overflow * ticksPerBeat.natAbs

/-- A note begins at a time that is one, and has a finite length. -/
def BeatNote.Timed (n : BeatNote) : Prop := n.start.isNan = false ∧ n.duration.isFinite

theorem BeatNote.Timed.isNan_stop {n : BeatNote} (h : n.Timed) : n.stop.isNan = false :=
  Binary64.isNan_add h.1 h.2

section Gathering

variable {ticksPerBeat : Int} {minDuration : Binary64}

theorem settles_noteInBeats (h : 0 < ticksPerBeat) (n : TickNote) :
    Settles (n.inBeats ticksPerBeat minDuration) (n.InRange ticksPerBeat) :=
  (settles_ofQuotient h.ne').andThen fun _ _ =>
    (settles_ofQuotient h.ne').followed fun _ _ => ⟨_, rfl⟩

theorem settles_trackInBeats (h : 0 < ticksPerBeat) (t : TickTrack) :
    Settles (t.inBeats ticksPerBeat minDuration) (∀ n ∈ t.notes, n.InRange ticksPerBeat) :=
  (Settles.mapM fun n _ => settles_noteInBeats h n).followed fun _ _ => ⟨_, rfl⟩

theorem settles_addTrack (h : 0 < ticksPerBeat) (g : Gathered) (t : TickTrack) :
    Settles (g.addTrack ticksPerBeat minDuration t) (∀ n ∈ t.notes, n.InRange ticksPerBeat) := by
  unfold Gathered.addTrack
  split
  · rename_i hempty
    refine (Settles.ok _).congr (iff_of_true trivial ?_)
    rw [List.isEmpty_iff.mp hempty]
    simp
  · exact (settles_trackInBeats h t).followed fun _ _ => ⟨_, rfl⟩

theorem settles_gather {score : Score} (h : 0 < score.ticksPerBeat) (options : ImportOptions) :
    Settles (score.gather options minDuration)
      (∀ t ∈ score.kept options, ∀ n ∈ t.notes, n.InRange score.ticksPerBeat) :=
  Settles.foldlM (fun g t _ => settles_addTrack h g t) _

theorem TickNote.inBeats_timed {n : TickNote} {b : BeatNote} (hd : minDuration.isFinite)
    (h : n.inBeats ticksPerBeat minDuration = .ok b) : b.Timed := by
  simp only [inBeats, bind_eq_ok, pure_eq_ok] at h
  obtain ⟨start, hstart, duration, hduration, rfl⟩ := h
  exact ⟨Binary64.isNan_of_isFinite (Binary64.isFinite_of_ofQuotient hstart),
    Binary64.isFinite_larger hd (Binary64.isFinite_of_ofQuotient hduration)⟩

/-- A repaired note begins where it did or where another one ends. -/
theorem repairNote_timed {ends : Ends} {n : BeatNote} (hd : minDuration.isFinite)
    (hends : ∀ e ∈ ends, e.2.isNan = false) (hn : n.Timed) :
    (repairNote minDuration ends n).1.Timed ∧
      (repairNote minDuration ends n).2.2.isNan = false := by
  have hprior : ((ends.lookup n.pitch).getD (.infinity true)).isNan = false := by
    cases hl : ends.lookup n.pitch with
    | none => rfl
    | some e =>
      obtain ⟨before, after, rfl, _⟩ := List.lookup_eq_some_iff.mp hl
      exact hends (n.pitch, e) (by simp)
  have hstart : (if n.start < (ends.lookup n.pitch).getD (.infinity true)
      then (ends.lookup n.pitch).getD (.infinity true) else n.start).isNan = false := by
    split
    · exact hprior
    · exact hn.1
  have hduration : (if n.duration ≤ 0 then minDuration else n.duration).isFinite = true := by
    split
    · exact hd
    · exact hn.2
  have hkept : ∀ (c : Prop) [Decidable c] (m : BeatNote), m.Timed → (if c then n else m).Timed := by
    intro c _ m hm
    split
    · exact hn
    · exact hm
  exact ⟨hkept _ _ ⟨hstart, hduration⟩, Binary64.isNan_add hstart hduration⟩

theorem repairFrom_timed {ends : Ends} {notes : List BeatNote} (hd : minDuration.isFinite)
    (hends : ∀ e ∈ ends, e.2.isNan = false) (hn : ∀ n ∈ notes, n.Timed) :
    ∀ n ∈ (repairFrom minDuration ends notes).1, n.Timed := by
  induction notes generalizing ends with
  | nil => simp [repairFrom]
  | cons n notes ih =>
    obtain ⟨hfirst, hrest⟩ := List.forall_mem_cons.mp hn
    obtain ⟨htimed, hstop⟩ := repairNote_timed hd hends hfirst
    rw [repairFrom]
    exact List.forall_mem_cons.mpr
      ⟨htimed, ih (List.forall_mem_cons.mpr ⟨hstop, hends⟩) hrest⟩

theorem TickTrack.inBeats_timed {t : TickTrack} {b : BeatTrack} {changes : Nat}
    (hd : minDuration.isFinite) (h : t.inBeats ticksPerBeat minDuration = .ok (b, changes)) :
    ∀ n ∈ b.notes, n.Timed := by
  simp only [inBeats, bind_eq_ok, pure_eq_ok] at h
  obtain ⟨notes, hnotes, hb⟩ := h
  have htimed : ∀ n ∈ notes, n.Timed := by
    intro n hn
    obtain ⟨_, _, hbeat⟩ := exists_of_forall₂_right (mapM_eq_ok.mp hnotes) hn
    exact TickNote.inBeats_timed hd hbeat
  obtain ⟨rfl, _⟩ := Prod.mk.inj hb
  have hsorted := sortNotes_perm fun n hn => (htimed n hn).1
  exact repairFrom_timed hd (by simp) fun n hn => htimed n (hsorted.mem_iff.mp hn)

/-- The tracks that are gathered are tracks in beats. -/
theorem gather_mem {score : Score} {options : ImportOptions} {gathered : Gathered}
    (h : score.gather options minDuration = .ok gathered) :
    ∀ b ∈ gathered.tracks, ∃ t ∈ score.kept options, ∃ changes,
      t.inBeats score.ticksPerBeat minDuration = .ok (b, changes) := by
  refine foldlM_preserves (P := fun g => ∀ b ∈ g.tracks, ∃ t ∈ score.kept options, ∃ changes,
    t.inBeats score.ticksPerBeat minDuration = .ok (b, changes)) h (by simp) ?_
  intro g t ht g' hg hadd
  unfold Gathered.addTrack at hadd
  split at hadd
  · obtain rfl := Except.ok.inj hadd
    exact hg
  · obtain ⟨⟨b, changes⟩, hb, hpure⟩ := bind_eq_ok.mp hadd
    obtain rfl := pure_eq_ok.mp hpure
    intro b' hb'
    rcases List.mem_append.mp hb' with hb' | hb'
    · exact hg b' hb'
    · obtain rfl := List.mem_singleton.mp hb'
      exact ⟨t, ht, changes, hb⟩

theorem gather_timed {score : Score} {options : ImportOptions} {gathered : Gathered}
    (hd : minDuration.isFinite) (h : score.gather options minDuration = .ok gathered) :
    ∀ t ∈ gathered.tracks, ∀ n ∈ t.notes, n.Timed := by
  intro b hb
  obtain ⟨t, _, changes, hbeats⟩ := gather_mem h b hb
  exact TickTrack.inBeats_timed hd hbeats

end Gathering

/-- A number of beats that is finite and at least one. -/
def IsLength (q : Quantity) : Prop :=
  ∃ b, q.toReal = .ok b ∧ b.isFinite ∧ (unitsPerOne : Int) ≤ b.units

theorem isLength_atLeastOne {x : Binary64} (hx : x.isFinite) :
    IsLength (Quantity.real x).atLeastOne := by
  unfold Quantity.atLeastOne
  dsimp only
  split
  · rename_i h
    refine ⟨x, rfl, hx, ?_⟩
    obtain ⟨a, u, hu, rfl⟩ := Binary64.exists_finite hx
    obtain ⟨_, hone⟩ := Binary64.one_eq
    rw [hone, Binary64.lt_finite] at h
    exact h.le
  · have hone : (1 : Binary64).isFinite ∧ (unitsPerOne : Int) ≤ (1 : Binary64).units := by
      decide +kernel
    have hreal : Binary64.ofInt 1 = .ok 1 := by decide +kernel
    exact ⟨1, hreal, hone⟩

theorem not_escapes_ceil (x : Binary64) : ¬ Escapes x.ceil ↔ x.isInfinite = false := by
  cases x with
  | nan => simp [Binary64.ceil, escapes_error, Escaping, unusable, Binary64.isInfinite]
  | infinity _ =>
    exact iff_of_false (not_not_intro ⟨_, rfl, escaping_unbounded⟩) (by simp [Binary64.isInfinite])
  | finite _ _ _ => exact iff_of_true (not_escapes_ok _) rfl

theorem not_escapes_barCount {total : Binary64} {q : Quantity} (h : IsLength q) :
    ¬ Escapes (barCount total q) ↔ total.isInfinite = false := by
  obtain ⟨b, hb, hfinite, hle⟩ := h
  have hzero : b.isZero = false := by
    by_contra hb0
    have hunits := Binary64.units_of_isZero (Bool.eq_true_of_not_eq_false hb0)
    have hpos := unitsPerOne_pos
    omega
  obtain ⟨y, hy⟩ := (settles_quotient total b).exists_ok hzero
  have hdivides : q.divides total = .ok (total / b) := by
    rw [← quotient_eq hy]
    exact bind_eq_ok.mpr ⟨b, hb, hy⟩
  rw [barCount, not_escapes_bind_ok hdivides]
  refine (not_escapes_followed fun _ _ => not_escapes_ok _).trans ?_
  rw [not_escapes_ceil, Binary64.isInfinite_div total hfinite hle]

/-- The meter of a score is that of a message. -/
def Score.Metered (score : Score) : Prop := score.meter.1.natAbs < 256 ∧ score.meter.2 ≠ 0

theorem Score.beatsPerBar_eq_ok {score : Score} (h : score.Metered) :
    ∃ q, score.beatsPerBar = .ok q ∧ IsLength q := by
  obtain ⟨hnum, hden⟩ := h
  have hlt : (score.meter.1 * 4).natAbs * unitsPerOne < overflow * score.meter.2.natAbs :=
    calc (score.meter.1 * 4).natAbs * unitsPerOne
        ≤ 2 ^ 110 * unitsPerOne := Nat.mul_le_mul_right _ (by omega)
      _ < overflow := two_pow_mul_unitsPerOne_lt
      _ ≤ overflow * score.meter.2.natAbs := Nat.le_mul_of_pos_right _ (Int.natAbs_pos.mpr hden)
  obtain ⟨x, hx⟩ := (settles_ofQuotient hden).exists_ok hlt
  exact ⟨_, bind_eq_ok.mpr ⟨x, hx, rfl⟩, isLength_atLeastOne (Binary64.isFinite_of_ofQuotient hx)⟩

/-- The checks before the times of a score are looked at. -/
def Score.Admitted (score : Score) (options : ImportOptions) : Prop :=
  0 < score.ticksPerBeat ∧
    options.maxNotes.isBelow ((score.kept options).flatMap (·.notes)).length = false

/-- A score that does not pass these checks is refused. -/
theorem Score.inBeats_refused {score : Score} {options : ImportOptions}
    (h : ¬ score.Admitted options) (filename : String) :
    ∃ reason, score.inBeats filename options = .error (.refusedImport reason) := by
  by_cases hticks : 0 < score.ticksPerBeat
  · have hchecked : score.checkTicks = .ok () := if_neg (by omega)
    have hbelow : options.maxNotes.isBelow ((score.kept options).flatMap (·.notes)).length := by
      by_contra hnot
      exact h ⟨hticks, Bool.eq_false_of_not_eq_true hnot⟩
    exact ⟨_, bind_eq_error.mpr
      (.inr ⟨(), hchecked, bind_eq_error.mpr (.inl (if_pos hbelow))⟩)⟩
  · exact ⟨.timeDivision, bind_eq_error.mpr (.inl (if_pos (by omega)))⟩

theorem not_escapes_inBeats {score : Score} {filename : String} {options : ImportOptions}
    {step : Binary64} (hm : score.Metered) (hs : gridStep options.division = .ok step) :
    ¬ Escapes (score.inBeats filename options) ↔ (score.Admitted options →
      (∀ t ∈ score.kept options, ∀ n ∈ t.notes, n.InRange score.ticksPerBeat) ∧
      ∀ gathered, score.gather options step = .ok gathered →
        (totalBeats gathered.tracks).isInfinite = false) := by
  obtain ⟨q, hq, hlength⟩ := score.beatsPerBar_eq_ok hm
  by_cases hadmitted : score.Admitted options
  · obtain ⟨hticks, hbelow⟩ := hadmitted
    have hchecked : score.checkTicks = .ok () := if_neg (by omega)
    have hcounted : score.checkNotes options options.maxNotes.text = .ok () :=
      if_neg (by rw [hbelow]; exact Bool.false_ne_true)
    rw [Score.inBeats, not_escapes_bind_ok hchecked, not_escapes_bind_ok hcounted,
      not_escapes_bind_ok hq, not_escapes_bind_ok hs, not_escapes_bind,
      (settles_gather hticks options).not_escapes_iff, forall_prop_of_true ⟨hticks, hbelow⟩]
    refine and_congr_right fun _ => forall₂_congr fun gathered _ => ?_
    cases hempty : gathered.tracks.isEmpty with
    | true =>
      have hnone : gathered.checkTracks = .error (.refusedImport .noNotes) := if_pos hempty
      rw [hnone, List.isEmpty_iff.mp hempty]
      exact iff_of_true (not_escapes_refused _) (by decide +kernel)
    | false =>
      have hsome : gathered.checkTracks = .ok () := if_neg (by simp [hempty])
      rw [not_escapes_bind_ok hsome]
      exact (not_escapes_followed fun _ _ => not_escapes_ok _).trans
        (not_escapes_barCount hlength)
  · obtain ⟨reason, hrefused⟩ := Score.inBeats_refused hadmitted filename
    rw [hrefused]
    exact iff_of_true (not_escapes_refused reason) fun h => absurd h hadmitted

theorem Score.inBeats_ne_nil {score : Score} {filename : String} {options : ImportOptions}
    {beats : BeatScore} {notices : List Notice} {reports : List TrackReport}
    (h : score.inBeats filename options = .ok (beats, notices, reports)) : beats.tracks ≠ [] := by
  simp only [inBeats, bind_eq_ok, pure_eq_ok] at h
  obtain ⟨_, _, _, _, _, _, _, _, gathered, _, _, hchecked, _, _, hscore⟩ := h
  obtain ⟨rfl, -, -⟩ := hscore
  rintro hempty
  dsimp only at hempty
  rw [Gathered.checkTracks, hempty] at hchecked
  cases hchecked

theorem Score.inBeats_timed {score : Score} {filename : String} {options : ImportOptions}
    {beats : BeatScore} {notices : List Notice} {reports : List TrackReport}
    (hm : score.Metered)
    (h : score.inBeats filename options = .ok (beats, notices, reports)) :
    (∀ t ∈ beats.tracks, ∀ n ∈ t.notes, n.Timed) ∧ IsLength beats.beatsPerBar ∧
      beats.tracks ≠ [] := by
  have hne := inBeats_ne_nil h
  simp only [inBeats, bind_eq_ok, pure_eq_ok] at h
  obtain ⟨_, _, _, _, q, hq, step, hs, gathered, hgather, _, _, _, _, hscore⟩ := h
  obtain ⟨rfl, -, -⟩ := hscore
  obtain ⟨step', hstep', hfinite⟩ := gridStep_eq_ok options.division
  obtain rfl := Except.ok.inj (hs.symm.trans hstep')
  obtain ⟨q', hq', hlength⟩ := score.beatsPerBar_eq_ok hm
  obtain rfl := Except.ok.inj (hq.symm.trans hq')
  exact ⟨gather_timed hfinite hgather, hlength, hne⟩

section Gridding

variable {step : Binary64}

theorem settles_noteOnGrid (hs : step.isFinite) {n : BeatNote} (h : n.Timed) :
    Settles (n.onGrid step) (CountsIn n.start step ∧ CountsIn n.stop step) :=
  (settles_snap h.1 hs).andThen fun _ _ =>
    (settles_snap h.isNan_stop hs).followed fun _ _ => ⟨_, rfl⟩

theorem settles_trackOnGrid (hs : step.isFinite) {t : BeatTrack} (h : ∀ n ∈ t.notes, n.Timed) :
    Settles (t.onGrid step)
      (∀ n ∈ t.notes, CountsIn n.start step ∧ CountsIn n.stop step) := by
  have hnotes : Settles (notesOnGrid t.notes step)
      (∀ n ∈ t.notes, CountsIn n.start step ∧ CountsIn n.stop step) :=
    (Settles.mapM fun n hn => settles_noteOnGrid hs (h n hn)).followed fun _ _ => ⟨_, rfl⟩
  exact hnotes.followed fun _ _ => ⟨_, rfl⟩

theorem not_escapes_onGrid {score : BeatScore} {options : ImportOptions}
    (hstep : gridStep options.division = .ok step) (hs : step.isFinite)
    (ht : ∀ t ∈ score.tracks, ∀ n ∈ t.notes, n.Timed) (hl : IsLength score.beatsPerBar) :
    ¬ Escapes (score.onGrid options) ↔
      (∀ t ∈ score.tracks, ∀ n ∈ t.notes, CountsIn n.start step ∧ CountsIn n.stop step) ∧
      ∀ tracks, score.tracks.mapM (·.onGrid step) = .ok tracks →
        (totalBeats tracks).isInfinite = false := by
  have htracks : Settles (score.tracks.mapM (·.onGrid step))
      (∀ t ∈ score.tracks, ∀ n ∈ t.notes, CountsIn n.start step ∧ CountsIn n.stop step) :=
    Settles.mapM fun t htrack => settles_trackOnGrid hs (ht t htrack)
  rw [BeatScore.onGrid, not_escapes_bind_ok hstep, not_escapes_bind, htracks.not_escapes_iff]
  refine and_congr_right fun _ => forall₂_congr fun tracks _ => ?_
  exact (not_escapes_followed fun _ _ => not_escapes_ok _).trans (not_escapes_barCount hl)

end Gridding

end Midi
end PatternLoom
