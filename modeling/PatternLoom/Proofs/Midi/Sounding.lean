import PatternLoom.Proofs.Midi.Extent
import PatternLoom.Proofs.Midi.NameCount

/-! The notes of a track that sound. Notes of one pitch that were moved to the grid begin on
different steps, and the pattern of the track has them all; where steps are rounded, this can
fail for notes that begin halfway between two steps. -/

namespace PatternLoom
namespace Midi

open Binary64

/-- On a grid of `d` steps a beat the notes do not straddle a step, or its steps are exact. -/
def BeatNote.Resolvable (d : Nat) (a b : BeatNote) : Prop :=
  (∃ e, d = 2 ^ e) ∨ ¬ Straddles d a.start b.start

section Pairs

variable {step : Binary64} {a b m m' : BeatNote} {i j : Int} {d total : Nat}

/-- A note that begins after another one has ended begins a step later, or more. -/
theorem BeatNote.Lasting.add_step_le (ha : a.Lasting step) (hs : step.Unsigned)
    (hsf : step.isFinite) (hf : a.stop.isFinite) (hclear : a.stop.value ≤ b.start.value) :
    (a.start + step).isFinite ∧ (a.start + step).value ≤ b.start.value := by
  obtain ⟨hstart, -⟩ := ha.start_le_stop hf
  have hstop := isRounding_add ha.start ha.duration hstart ha.finite
  have hnext := isRounding_add ha.start hs hstart hsf
  have hle : a.start.value + step.value ≤ a.start.value + a.duration.value :=
    add_le_add_right ha.step_le _
  have hnextf := hnext.isFinite_of_le hstop hle hf
  exact ⟨hnextf, (hnext.mono hstop hnextf hf hle).trans hclear⟩

/-- Such notes are moved to different steps, if steps are exact or the notes do not begin
halfway between steps. -/
theorem BeatNote.MovedTo.ne (hs : IsStep step d) (hstep : gridStep (.whole d) = .ok step)
    (ham : a.MovedTo step m i) (ha : a.Lasting step) (hb : b.Lasting step)
    (haf : a.stop.isFinite) (hbf : b.stop.isFinite) (hbm : b.MovedTo step m' j) (hi : i ≤ 2 ^ 49)
    (hclear : a.stop.value ≤ b.start.value)
    (hgrid : a.Resolvable d b) : i ≠ j := by
  obtain ⟨hnextf, hnext⟩ := ha.add_step_le hs.unsigned hs.finite haf hclear
  obtain ⟨hastart, -⟩ := ha.start_le_stop haf
  obtain ⟨hbstart, -⟩ := hb.start_le_stop hbf
  rcases hgrid with ⟨e, rfl⟩ | hstraddles
  · have he : e ≤ 50 := (Nat.pow_le_pow_iff_right (by decide)).mp hs.division_le
    exact (ham.falls.lt_of_two_pow he hstep ha.start hb.start hastart hbstart hbm.falls hi
      hnextf hnext).ne
  · rintro rfl
    refine hstraddles (ham.falls.straddles hs ha.start hb.start hbm.falls ?_)
    have hsum := isRounding_add ha.start hs.unsigned hastart hs.finite
    have hlow := hs.le_value
    have hnonneg := ha.start.value_nonneg
    exact (hsum.mul_le_value hnextf (by linarith)).trans hnext

/-- The step index of a note on the grid is that of the step to which it was moved. -/
theorem BeatNote.MovedTo.stepIndex_eq (h : a.MovedTo step m i) (hs : IsStep step d) (hi : 0 ≤ i)
    (hlt : i < total) (ht : total ≤ 2 ^ 48) : stepIndex total step m.start = .ok i.toNat := by
  obtain ⟨k, hk⟩ := (settles_stepIndex total (h.unsigned hs hi).1.1 hs.finite).exists_ok
    (h.countsIn hs hi (by omega))
  obtain ⟨n, rfl⟩ := Int.eq_ofNat_of_zero_le hi
  obtain ⟨x, hx, hstart⟩ := h.start_eq
  have hn : n ≤ 2 ^ 49 := by omega
  rw [hk]
  rw [hstart] at hk
  simp only [stepIndex, bind_eq_ok, pure_eq_ok] at hk
  obtain ⟨q, hq, e, he, rfl⟩ := hk
  rw [FallsOn.eq_of_step hs hn hx ⟨q, hq, he⟩]
  refine congrArg Except.ok ?_
  omega

end Pairs

section Tracks

variable {step : Binary64} {t g : BeatTrack} {d total : Nat}

/-- A note that lasts, the same note on the grid, and a step on which it begins. -/
structure BeatNote.Placed (step : Binary64) (n m : BeatNote) : Prop where
  lasting : n.Lasting step
  moved : ∃ k, 0 ≤ k ∧ n.MovedTo step m k

/-- The notes of a track, but for their order, are moved one by one. -/
theorem BeatTrack.onGrid_moved (hs : IsStep step d) (hlasting : ∀ n ∈ t.notes, n.Lasting step)
    (h : t.onGrid step = .ok g) : ∃ moved, t.notes.mapM (·.onGrid step) = .ok moved ∧
      g.notes.Perm moved ∧ List.Forall₂ (BeatNote.Placed step) t.notes moved := by
  simp only [onGrid, notesOnGrid, bind_eq_ok, pure_eq_ok] at h
  obtain ⟨_, ⟨moved, hmoved, rfl⟩, rfl⟩ := h
  have hall : List.Forall₂ (BeatNote.Placed step) t.notes moved := by
    refine ((List.forall₂_and_left _ _).mpr ⟨hlasting, mapM_eq_ok.mp hmoved⟩).imp ?_
    rintro n m ⟨hn, hm⟩
    obtain ⟨k, hk⟩ := BeatNote.onGrid_moved hm
    exact ⟨hn, k, hk.falls.nonneg hs.unsigned hs.finite hn.start, hk⟩
  refine ⟨moved, hmoved, sortNotes_perm fun m hm => ?_, hall⟩
  obtain ⟨n, _, _, k, hk, hmove⟩ := exists_of_forall₂_right hall hm
  exact (hmove.unsigned hs hk).1.1

theorem BeatNote.MovedTo.stop_isFinite {n m : BeatNote} {k : Int} (h : n.MovedTo step m k)
    (hs : IsStep step d) (hn : n.Lasting step) : n.stop.isFinite := by
  obtain ⟨e, he⟩ := h.stop_falls
  exact (he.bounds hs.unsigned hs.finite hn.stop_unsigned).1

/-- The last step is behind all steps on which the notes of a track on the grid begin. -/
def BeatTrack.Within (total : Nat) (step : Binary64) (g : BeatTrack) : Prop :=
  ∀ (n m : BeatNote) (k : Int), m ∈ g.notes → 0 ≤ k → n.MovedTo step m k → k < total

/-- Two notes that clear each other are apart on the grid. -/
theorem BeatNote.Placed.apart {a b m m' : BeatNote} (hs : IsStep step d)
    (hstep : gridStep (.whole d) = .ok step) (hsize : total ≤ 2 ^ 48) (hg : g.Within total step)
    (ha : a.Placed step m) (hb : b.Placed step m') (hm : m ∈ g.notes) (hm' : m' ∈ g.notes)
    (hclears : a.Clears b) (hgrid : a.pitch = b.pitch → a.Resolvable d b) :
    m.Apart total step m' := by
  obtain ⟨halast, i, hi, hai⟩ := ha
  obtain ⟨hblast, j, hj, hbj⟩ := hb
  intro hpitch
  have hsame : a.pitch = b.pitch := hai.pitch_eq.symm.trans (hpitch.trans hbj.pitch_eq)
  have hit := hg a m i hm hi hai
  have hjt := hg b m' j hm' hj hbj
  have hne := hai.ne hs hstep halast hblast (hai.stop_isFinite hs halast)
    (hbj.stop_isFinite hs hblast) hbj (by omega) (hclears hsame) (hgrid hsame)
  exact ⟨i.toNat, j.toNat, hai.stepIndex_eq hs hi hit hsize, hbj.stepIndex_eq hs hj hjt hsize,
    by omega⟩

/-- What is heard of a track `t` as track `g` on the grid: two of its notes that are resolvable
are apart, and if all are that have one pitch, the pattern of a melodic track names every note. -/
structure BeatTrack.Sounds (t g : BeatTrack) (bars : Int) (beatsPerBar : Quantity)
    (options : ImportOptions) (d total : Nat) (step : Binary64) : Prop where
  apart : ∃ moved, t.notes.mapM (·.onGrid step) = .ok moved ∧ g.notes.Perm moved ∧
    (t.notes.zip moved).Pairwise fun a b => a.1.Resolvable d b.1 → a.2.Apart total step b.2
  named : ∃ tokens, stepTokens g bars beatsPerBar options = .ok tokens ∧
    (g.role = .melodic → t.notes.Pairwise (fun a b => a.pitch = b.pitch → a.Resolvable d b) →
      (readPattern (" ".intercalate tokens)).flatten.length = g.notes.length)

theorem BeatTrack.onGrid_sounds {bars : Int} {q : Quantity} {options : ImportOptions}
    (hs : IsStep step d) (hd : options.division = .whole d)
    (hstep : gridStep options.division = .ok step)
    (htotal : totalSteps bars q options.division.atLeastOne = .ok total) (hsize : total ≤ 2 ^ 48)
    (hspaced : Spaced step t.notes) (h : t.onGrid step = .ok g) (hg : g.Within total step) :
    t.Sounds g bars q options d total step := by
  have hwhole : gridStep (.whole d) = .ok step := by rwa [hd] at hstep
  have hatLeast : gridStep options.division.atLeastOne = .ok step := by
    rw [gridStep_atLeastOne, hstep]
  obtain ⟨moved, hmoved, hperm, hall⟩ := onGrid_moved hs hspaced.lasting h
  have hfinite : ∀ n ∈ t.notes, n.stop.isFinite := by
    intro n hn
    obtain ⟨m, _, hlasting, k, _, hmove⟩ := exists_of_forall₂_right hall.flip hn
    exact hmove.stop_isFinite hs hlasting
  have hclears := hspaced.clears hfinite
  have hmem : ∀ m ∈ moved, m ∈ g.notes := fun m hm => hperm.mem_iff.mpr hm
  have hplaced := ((List.forall₂_and_left moved t.notes).mpr ⟨hmem, hall.flip⟩).flip
  have hcounted : ∀ m ∈ g.notes, m.start.isNan = false ∧ CountsIn m.start step := by
    intro m hm
    obtain ⟨n, _, _, k, hk, hmove⟩ := exists_of_forall₂_right hall (hperm.mem_iff.mp hm)
    have hkt := hg n m k hm hk hmove
    exact ⟨(hmove.unsigned hs hk).1.1, hmove.countsIn hs hk (by omega)⟩
  obtain ⟨tokens, htokens⟩ := (settles_stepTokens hstep hs.finite htotal
    fun m hm => (hcounted m hm).1).exists_ok fun m hm => (hcounted m hm).2
  -- The notes on the grid are sorted once more; pairs are matched in the order before that.
  refine ⟨⟨moved, hmoved, hperm, ?_⟩, tokens, htokens, fun hrole hresolvable => ?_⟩
  · refine pairwise_zip hplaced hclears ?_
    rintro a b c e ⟨hc, ha⟩ ⟨he, hb⟩ hab hgrid
    exact ha.apart hs hwhole hsize hg hb hc he hab fun _ => hgrid
  · refine length_flatten_readPattern hrole htotal hatLeast ?_ htokens
    refine (hperm.pairwise_iff BeatNote.Apart.symm).mpr
      (pairwise_of_forall₂ hplaced (hclears.and hresolvable) ?_)
    rintro a b c e ⟨hc, ha⟩ ⟨he, hb⟩ ⟨hab, hgrid⟩
    exact ha.apart hs hwhole hsize hg hb hc he hab hgrid

/-- No note on the grid begins behind the last step of the bars that are counted for them. -/
theorem onGrid_within {ts tracks : List BeatTrack} {bars : Int} {q : Quantity} {v : ℚ}
    (hs : IsStep step d) (hone : 1 ≤ d) (hq : BarLength q v) (hspaced : ∀ t ∈ ts, Spaced step t.notes)
    (htracks : ts.mapM (·.onGrid step) = .ok tracks)
    (hbars : barCount (totalBeats tracks) q = .ok bars)
    (htotal : totalSteps bars q (.whole d) = .ok total) (hsize : total ≤ 2 ^ 48) :
    ∀ g ∈ tracks, g.Within total step := by
  have hall := (List.forall₂_and_left _ _).mpr ⟨hspaced, mapM_eq_ok.mp htracks⟩
  have hstops : ∀ g ∈ tracks, ∀ m ∈ g.notes, m.stop.Unsigned := by
    intro g hg m hm
    obtain ⟨t, _, ht, hgt⟩ := exists_of_forall₂_right hall hg
    obtain ⟨moved, _, hperm, hnotes⟩ := BeatTrack.onGrid_moved hs ht.lasting hgt
    obtain ⟨n, _, _, k, hk, hmove⟩ := exists_of_forall₂_right hnotes (hperm.mem_iff.mp hm)
    exact (hmove.unsigned hs hk).1.add (hmove.unsigned hs hk).2
  obtain ⟨hunsigned, hlast⟩ := totalBeats_bounds hstops
  have hheld := hlast (barCount_bounds hq hunsigned hbars).1
  intro g hg n m k hm hk hmove
  obtain ⟨hf, hle⟩ := hheld g hg m hm
  exact hmove.lt_totalSteps hs hk hq hone hunsigned hbars htotal hsize hf hle

end Tracks

/-- The notes of every track that is imported sound, as far as the grid can resolve them. -/
theorem Score.import_sounds {score : Score} {filename : String} {options : ImportOptions}
    {beats gridded : BeatScore} {notices : List Notice} {reports : List TrackReport} {d total : Nat}
    {step : Binary64} (hd : options.division = .whole d) (hone : 1 ≤ d)
    (hsounds : ∀ t ∈ score.tracks, ∀ n ∈ t.notes, n.Sounds)
    (hbeats : score.inBeats filename options = .ok (beats, notices, reports))
    (hgrid : beats.onGrid options = .ok gridded)
    (hstep : gridStep options.division.atLeastOne = .ok step)
    (htotal : totalSteps gridded.bars gridded.beatsPerBar options.division.atLeastOne = .ok total)
    (hsize : total ≤ 2 ^ 48) :
    List.Forall₂ (fun t g => t.Sounds g gridded.bars gridded.beatsPerBar options d total step)
      beats.tracks gridded.tracks := by
  obtain ⟨v, hq⟩ := Score.inBeats_barLength hbeats
  simp only [BeatScore.onGrid, bind_eq_ok, pure_eq_ok] at hgrid
  obtain ⟨step', hstep', tracks, htracks, bars, hbars, rfl⟩ := hgrid
  dsimp only at htotal ⊢
  rw [gridStep_atLeastOne] at hstep
  obtain rfl := Except.ok.inj (hstep.symm.trans hstep')
  have hwhole : totalSteps bars beats.beatsPerBar (.whole d) = .ok total := by
    have hatLeast : options.division.atLeastOne = .whole d := by
      rw [hd, Quantity.atLeastOne]
      exact congrArg Quantity.whole (by omega)
    rwa [hatLeast] at htotal
  have hdivision := division_le hq (one_le_barCount hbars) hone hwhole hsize
  have hs : IsStep step d := isStep_gridStep hone hdivision (by rwa [hd] at hstep)
  have hlow := hs.le_value
  have hspaced := Score.inBeats_spaced hs.unsigned (by linarith) hstep hsounds hbeats
  have hwithin := onGrid_within hs hone hq hspaced htracks hbars hwhole hsize
  have hboth := ((List.forall₂_and_left _ _).mpr ⟨hspaced, mapM_eq_ok.mp htracks⟩).flip
  refine ((List.forall₂_and_left _ _).mpr ⟨hwithin, hboth⟩).flip.imp ?_
  rintro t g ⟨hg, ht, hgrid⟩
  exact BeatTrack.onGrid_sounds hs hd hstep htotal hsize ht hgrid hg

section Single

theorem not_straddles_zero (d : Nat) (y : Binary64) : ¬ Straddles d 0 y := by
  rintro ⟨k, hk, -⟩
  rw [value_zero, zero_mul, abs_sub_comm, sub_zero] at hk
  have hpos : (0 : ℚ) ≤ k := Nat.cast_nonneg k
  have hle := le_of_abs_le hk
  linarith

/-- A grid of a whole number of steps a beat. -/
def wholeGrid (d : Nat) : ImportOptions := { division := .whole d }

/-- A score of one track in common time. -/
def single (ticksPerBeat : Int) (track : TickTrack) : Score := ⟨0, ticksPerBeat, [track], [], [], 0⟩

/-- A melodic track with other notes than those in ticks. -/
def TickTrack.melodic (track : TickTrack) (notes : List BeatNote) : BeatTrack where
  index := track.index
  name := track.name
  role := .melodic
  channel := dominant (track.notes.map TickNote.channel)
  program := dominant (track.notes.map TickNote.program)
  notes := notes

theorem single_beatsPerBar (ticksPerBeat : Int) (track : TickTrack) :
    (single ticksPerBeat track).beatsPerBar = .ok (.real 4) := by
  have hquot : ofQuotient 16 4 = .ok 4 := by decide +kernel
  have hfour : Quantity.atLeastOne (.real 4) = .real 4 := by decide +kernel
  exact bind_eq_ok.mpr ⟨4, hquot, pure_eq_ok.mpr hfour⟩

/-- The stages of an import of one melodic track. -/
theorem single_stages {ticksPerBeat : Int} {track : TickTrack} {d changes : Nat} {step : Binary64}
    {notes repaired moved : List BeatNote} {bars bars' : Int} (hticks : 0 < ticksPerBeat)
    (hnotes : track.notes.isEmpty = false) (hfew : track.notes.length ≤ 100000)
    (hrole : dominant (track.notes.map TickNote.channel) ≠ some drumChannel)
    (hstep : gridStep (.whole d) = .ok step)
    (hbeats : track.notes.mapM (·.inBeats ticksPerBeat step) = .ok notes)
    (hsorted : sortNotes notes = notes)
    (hrepaired : repairFrom step [] notes = (repaired, changes))
    (hbars : barCount (largest (repaired.map BeatNote.stop)) (.real 4) = .ok bars)
    (hmoved : repaired.mapM (·.onGrid step) = .ok moved) (hsorted' : sortNotes moved = moved)
    (hbars' : barCount (largest (moved.map BeatNote.stop)) (.real 4) = .ok bars') :
    ∃ beats notices reports gridded,
      (single ticksPerBeat track).inBeats "lead.mid" (wholeGrid d) =
        .ok (beats, notices, reports) ∧
      beats.onGrid (wholeGrid d) = .ok gridded ∧ beats.tracks = [track.melodic repaired] ∧
      gridded.tracks = [track.melodic moved] ∧ gridded.bars = bars' ∧
      gridded.beatsPerBar = .real 4 := by
  have htrack : track.inBeats ticksPerBeat step = .ok (track.melodic repaired, changes) := by
    refine bind_eq_ok.mpr ⟨_, hbeats, ?_⟩
    rw [repairOverlaps, hsorted, hrepaired, if_neg hrole]
    rfl
  have hgather : ∃ gathered, (single ticksPerBeat track).gather (wholeGrid d) step = .ok gathered ∧
      gathered.tracks = [track.melodic repaired] :=
    ⟨_, bind_eq_ok.mpr ⟨_, (if_neg (by simp [hnotes])).trans
      (bind_eq_ok.mpr ⟨_, htrack, rfl⟩), rfl⟩, rfl⟩
  obtain ⟨gathered, hgathered, htracks⟩ := hgather
  have hchecked : (single ticksPerBeat track).checkTicks = .ok () :=
    if_neg (by simpa [single] using hticks)
  have hcounted : (single ticksPerBeat track).checkNotes (wholeGrid d)
      (wholeGrid d).maxNotes.text = .ok () := by
    refine if_neg ?_
    change ¬ decide ((100000 : Int) < (([track].flatMap (·.notes)).length : Nat)) = true
    rw [List.flatMap_singleton, decide_eq_true_eq]
    omega
  have hsome : gathered.checkTracks = .ok () := if_neg (by rw [htracks]; exact Bool.false_ne_true)
  have htotal : ∀ notes, totalBeats [track.melodic notes] = largest (notes.map BeatNote.stop) :=
    fun notes => congrArg largest (List.flatMap_singleton _ _)
  have hbars₁ : barCount (totalBeats gathered.tracks) (.real 4) = .ok bars := by
    rw [htracks, htotal, hbars]
  have hbars₂ : barCount (totalBeats [track.melodic moved]) (.real 4) = .ok bars' := by
    rw [htotal, hbars']
  have hgridded : gathered.tracks.mapM (·.onGrid step) = .ok [track.melodic moved] := by
    rw [htracks]
    refine bind_eq_ok.mpr ⟨_, bind_eq_ok.mpr ⟨moved, bind_eq_ok.mpr ⟨moved, hmoved, ?_⟩, rfl⟩, rfl⟩
    rw [hsorted']
    rfl
  exact ⟨_, _, _, _, bind_eq_ok.mpr ⟨_, hchecked, bind_eq_ok.mpr ⟨_, hcounted, bind_eq_ok.mpr ⟨_,
    single_beatsPerBar ticksPerBeat track, bind_eq_ok.mpr ⟨_, hstep, bind_eq_ok.mpr ⟨_, hgathered,
      bind_eq_ok.mpr ⟨_, hsome, bind_eq_ok.mpr ⟨_, hbars₁, rfl⟩⟩⟩⟩⟩⟩⟩,
    bind_eq_ok.mpr ⟨_, hstep, bind_eq_ok.mpr ⟨_, hgridded, bind_eq_ok.mpr ⟨_, hbars₂, rfl⟩⟩⟩,
    htracks, rfl, rfl, rfl⟩

/-- The notes of a lead that is pressed again before it is released, on fifths of a beat. -/
theorem leadScore_sounds : ∃ beats notices reports gridded t g total step,
    (wholeGrid 5).division = .whole (5 : Nat) ∧
    (∀ t ∈ leadScore.tracks, ∀ n ∈ t.notes, n.Sounds) ∧
    leadScore.inBeats "lead.mid" (wholeGrid 5) = .ok (beats, notices, reports) ∧
    beats.onGrid (wholeGrid 5) = .ok gridded ∧
    gridStep (wholeGrid 5).division.atLeastOne = .ok step ∧
    totalSteps gridded.bars gridded.beatsPerBar (wholeGrid 5).division.atLeastOne = .ok total ∧
    total ≤ 2 ^ 48 ∧ beats.tracks = [t] ∧ gridded.tracks = [g] ∧
    t.notes.Pairwise (fun a b => a.pitch = b.pitch → a.Resolvable 5 b) ∧
    t.Sounds g gridded.bars gridded.beatsPerBar (wholeGrid 5) 5 total step := by
  have hstep : gridStep (.whole (5 : Nat)) = .ok 0.2 := by decide +kernel
  have hbeats : leadTrack.notes.mapM (·.inBeats 480 0.2) = .ok (twoNotes 0 1 0.5 1) := by
    decide +kernel
  have hsorted : sortNotes (twoNotes 0 1 0.5 1) = twoNotes 0 1 0.5 1 :=
    sortNotes_of_sorted (by decide +kernel) (by decide +kernel)
  have hrepaired : repairFrom 0.2 [] (twoNotes 0 1 0.5 1) = (twoNotes 0 1 1 1, 1) := by
    decide +kernel
  have hbars : barCount (largest ((twoNotes 0 1 1 1).map BeatNote.stop)) (.real 4) = .ok 1 := by
    decide +kernel
  have hmoved : (twoNotes 0 1 1 1).mapM (·.onGrid 0.2) = .ok (twoNotes 0 1 1 1) := by
    decide +kernel
  have hsorted' : sortNotes (twoNotes 0 1 1 1) = twoNotes 0 1 1 1 :=
    sortNotes_of_sorted (by decide +kernel) (by decide +kernel)
  obtain ⟨beats, notices, reports, gridded, hinBeats, hgrid, htracks, htracks', hbars', hq⟩ :=
    single_stages (by decide) rfl (by decide) (by decide) hstep hbeats hsorted hrepaired hbars
      hmoved hsorted' hbars
  have htotal : totalSteps gridded.bars gridded.beatsPerBar (wholeGrid 5).division.atLeastOne =
      .ok 20 := by
    rw [hbars', hq]
    decide +kernel
  have hsounds : ∀ t ∈ leadScore.tracks, ∀ n ∈ t.notes, n.Sounds := by
    intro t ht n hn
    obtain rfl := List.mem_singleton.mp ht
    revert n
    unfold TickNote.Sounds
    decide
  have hresolvable : (leadTrack.melodic (twoNotes 0 1 1 1)).notes.Pairwise
      (fun a b => a.pitch = b.pitch → a.Resolvable 5 b) :=
    List.pairwise_pair.mpr fun _ => .inr (not_straddles_zero 5 1)
  have hall := Score.import_sounds rfl (by decide) hsounds hinBeats hgrid hstep htotal (by decide)
  rw [htracks, htracks'] at hall
  exact ⟨beats, notices, reports, gridded, _, _, 20, 0.2, rfl, hsounds, hinBeats, hgrid, hstep,
    htotal, by decide, htracks, htracks', hresolvable, (List.forall₂_cons.mp hall).1⟩

/-- Two notes of a pitch of one tick each. -/
def shortNotes (start₁ start₂ : Int) : TickTrack where
  index := 0
  name := "Lead"
  notes := [
    ⟨60, velocityShare 100, start₁, 1, some 0, none⟩,
    ⟨60, velocityShare 64, start₂, 1, some 0, none⟩]

/-- Two notes of a pitch of a melodic track come to begin on one step. -/
def Score.Merges (score : Score) (options : ImportOptions) : Prop :=
  (∀ t ∈ score.tracks, ∀ n ∈ t.notes, n.Sounds) ∧
  ∃ beats notices reports gridded g total step a b i,
    score.inBeats "lead.mid" options = .ok (beats, notices, reports) ∧
    beats.onGrid options = .ok gridded ∧ g ∈ gridded.tracks ∧ g.role = .melodic ∧
    totalSteps gridded.bars gridded.beatsPerBar options.division.atLeastOne = .ok total ∧
    gridStep options.division.atLeastOne = .ok step ∧ g.notes = [a, b] ∧ a.pitch = b.pitch ∧
    stepIndex total step a.start = .ok i ∧ stepIndex total step b.start = .ok i

theorem shortNotes_sounds {ticksPerBeat start₁ start₂ : Int} (h₁ : 0 ≤ start₁) (h₂ : 0 ≤ start₂) :
    ∀ t ∈ (single ticksPerBeat (shortNotes start₁ start₂)).tracks, ∀ n ∈ t.notes, n.Sounds := by
  intro t ht n hn
  obtain rfl := List.mem_singleton.mp ht
  rcases List.mem_pair.mp hn with rfl | rfl
  · exact ⟨h₁, Int.one_pos⟩
  · exact ⟨h₂, Int.one_pos⟩

theorem Score.merges_of_twoNotes {score : Score} {options : ImportOptions}
    {beats gridded : BeatScore} {notices : List Notice} {reports : List TrackReport}
    {track : TickTrack} {start₁ duration₁ start₂ duration₂ step : Binary64} {total i : Nat}
    (hsounds : ∀ t ∈ score.tracks, ∀ n ∈ t.notes, n.Sounds)
    (hinBeats : score.inBeats "lead.mid" options = .ok (beats, notices, reports))
    (hgrid : beats.onGrid options = .ok gridded)
    (htracks : gridded.tracks = [track.melodic (twoNotes start₁ duration₁ start₂ duration₂)])
    (htotal : totalSteps gridded.bars gridded.beatsPerBar options.division.atLeastOne = .ok total)
    (hstep : gridStep options.division.atLeastOne = .ok step)
    (h₁ : stepIndex total step start₁ = .ok i) (h₂ : stepIndex total step start₂ = .ok i) :
    score.Merges options := by
  have hmem : track.melodic (twoNotes start₁ duration₁ start₂ duration₂) ∈ gridded.tracks := by
    rw [htracks]
    exact List.mem_singleton_self _
  exact ⟨hsounds, beats, notices, reports, gridded, _, total, step, _, _, i, hinBeats, hgrid, hmem,
    rfl, htotal, hstep, rfl, rfl, h₁, h₂⟩

/-- Two notes that straddle a step of fifths of a beat merge, and on any grid so can notes that
begin where the integers are no longer apart from their halves. -/
theorem shortNotes_merge : (single 6 (shortNotes 3 4)).Merges (wholeGrid 5) ∧
    (single 1 (shortNotes (2 ^ 52 + 1) (2 ^ 52 + 2))).Merges (wholeGrid 1) := by
  constructor
  · have hstep : gridStep (.whole (5 : Nat)) = .ok 0.2 := by decide +kernel
    have hbeats : (shortNotes 3 4).notes.mapM (·.inBeats 6 0.2) =
        .ok (twoNotes 0.5 0.2 (2 / 3) 0.2) := by decide +kernel
    have hsorted : sortNotes (twoNotes 0.5 0.2 (2 / 3) 0.2) = twoNotes 0.5 0.2 (2 / 3) 0.2 :=
      sortNotes_of_sorted (by decide +kernel) (by decide +kernel)
    -- Repair puts the second note behind the first one, at three and a half steps.
    have hrepaired : repairFrom 0.2 [] (twoNotes 0.5 0.2 (2 / 3) 0.2) =
        (twoNotes 0.5 0.2 0.7 0.2, 1) := by decide +kernel
    have hbars : barCount (largest ((twoNotes 0.5 0.2 0.7 0.2).map BeatNote.stop)) (.real 4) =
        .ok 1 := by decide +kernel
    have hmoved : (twoNotes 0.5 0.2 0.7 0.2).mapM (·.onGrid 0.2) =
        .ok (twoNotes (3 * 0.2) 0.2 (3 * 0.2) 0.2) := by decide +kernel
    have hsorted' : sortNotes (twoNotes (3 * 0.2) 0.2 (3 * 0.2) 0.2) =
        twoNotes (3 * 0.2) 0.2 (3 * 0.2) 0.2 :=
      sortNotes_of_sorted (by decide +kernel) (by decide +kernel)
    have hbars' : barCount (largest ((twoNotes (3 * 0.2) 0.2 (3 * 0.2) 0.2).map BeatNote.stop))
        (.real 4) = .ok 1 := by decide +kernel
    obtain ⟨beats, notices, reports, gridded, hinBeats, hgrid, -, htracks, hcounted, hq⟩ :=
      single_stages (by decide) rfl (by decide) (by decide) hstep hbeats hsorted hrepaired hbars
        hmoved hsorted' hbars'
    have htotal : totalSteps gridded.bars gridded.beatsPerBar (wholeGrid 5).division.atLeastOne =
        .ok 20 := by
      rw [hcounted, hq]
      decide +kernel
    have hindex : stepIndex 20 0.2 (3 * 0.2) = .ok 3 := by decide +kernel
    exact Score.merges_of_twoNotes (shortNotes_sounds (by decide) (by decide)) hinBeats hgrid
      htracks htotal hstep hindex hindex
  · have hstep : gridStep (.whole (1 : Nat)) = .ok 1 := by decide +kernel
    have hbeats : (shortNotes (2 ^ 52 + 1) (2 ^ 52 + 2)).notes.mapM (·.inBeats 1 1) =
        .ok (twoNotes 4503599627370497 1 4503599627370498 1) := by decide +kernel
    have hsorted : sortNotes (twoNotes 4503599627370497 1 4503599627370498 1) =
        twoNotes 4503599627370497 1 4503599627370498 1 :=
      sortNotes_of_sorted (by decide +kernel) (by decide +kernel)
    have hrepaired : repairFrom 1 [] (twoNotes 4503599627370497 1 4503599627370498 1) =
        (twoNotes 4503599627370497 1 4503599627370498 1, 0) := by decide +kernel
    have hbars : barCount (largest ((twoNotes 4503599627370497 1 4503599627370498 1).map
        BeatNote.stop)) (.real 4) = .ok 1125899906842625 := by decide +kernel
    -- Of an odd integer the sum with one half is a tie, and goes to the even integer above.
    have hmoved : (twoNotes 4503599627370497 1 4503599627370498 1).mapM (·.onGrid 1) =
        .ok (twoNotes 4503599627370498 1 4503599627370498 2) := by decide +kernel
    have hsorted' : sortNotes (twoNotes 4503599627370498 1 4503599627370498 2) =
        twoNotes 4503599627370498 1 4503599627370498 2 :=
      sortNotes_of_sorted (by decide +kernel) (by decide +kernel)
    have hbars' : barCount (largest ((twoNotes 4503599627370498 1 4503599627370498 2).map
        BeatNote.stop)) (.real 4) = .ok 1125899906842625 := by decide +kernel
    obtain ⟨beats, notices, reports, gridded, hinBeats, hgrid, -, htracks, hcounted, hq⟩ :=
      single_stages (by decide) rfl (by decide) (by decide) hstep hbeats hsorted hrepaired hbars
        hmoved hsorted' hbars'
    have htotal : totalSteps gridded.bars gridded.beatsPerBar (wholeGrid 1).division.atLeastOne =
        .ok 4503599627370500 := by
      rw [hcounted, hq]
      decide +kernel
    have hindex : stepIndex 4503599627370500 1 4503599627370498 = .ok 4503599627370498 := by
      decide +kernel
    exact Score.merges_of_twoNotes (shortNotes_sounds (by decide) (by decide)) hinBeats hgrid
      htracks htotal hstep hindex hindex

example : stepTokens ((shortNotes 3 4).melodic (twoNotes (3 * 0.2) 0.2 (3 * 0.2) 0.2)) 1 (.real 4)
    (wholeGrid 5) = .ok ["~!3", "c4", "~!16"] := by decide +kernel

end Single

end Midi
end PatternLoom
