import Mathlib
import PatternLoom.Proofs.Midi.Collected
import PatternLoom.Proofs.Midi.Conservation

/-! What an import tells of its tracks. Every track that is kept has one report, and the notices
count the tracks that were dropped, skipped or given a fallback sound, the events that were passed
over and the repairs, each under its own code. -/

namespace PatternLoom
namespace Midi

section Tracks

/-- Whether a track is imported if it is kept: it has notes. -/
def TickTrack.sounds (t : TickTrack) : Bool := !t.notes.isEmpty

/-- The channel of most notes. -/
def TickTrack.mainChannel (t : TickTrack) : Option Int := dominant (t.notes.map TickNote.channel)

/-- The program of most notes. -/
def TickTrack.mainProgram (t : TickTrack) : Option Int := dominant (t.notes.map TickNote.program)

/-- Whether a track needs the fallback: it is no drum track and has no program from 0 to 127. -/
def TickTrack.unmapped (t : TickTrack) : Bool :=
  t.mainChannel ≠ some drumChannel && t.mainProgram.all fun p => p < 0 || 127 < p

/-- A track in beats is of the track in ticks, whatever its notes are. -/
structure BeatTrack.IsOf (b : BeatTrack) (t : TickTrack) : Prop where
  index_eq : b.index = t.index
  name_eq : b.name = t.name
  role_eq : b.role = if t.mainChannel = some drumChannel then .drum else .melodic
  channel_eq : b.channel = t.mainChannel
  program_eq : b.program = t.mainProgram

theorem TickTrack.inBeats_isOf {t : TickTrack} {ticksPerBeat : Int} {minDuration : Binary64}
    {b : BeatTrack} {changes : Nat} (h : t.inBeats ticksPerBeat minDuration = .ok (b, changes)) :
    b.IsOf t := by
  simp only [inBeats, bind_eq_ok, pure_eq_ok] at h
  obtain ⟨notes, _, hb⟩ := h
  obtain ⟨rfl, _⟩ := Prod.mk.inj hb
  exact ⟨rfl, rfl, rfl, rfl, rfl⟩

theorem BeatTrack.IsOf.onGrid {b g : BeatTrack} {t : TickTrack} {step : Binary64} (h : b.IsOf t)
    (hg : b.onGrid step = .ok g) : g.IsOf t := by
  obtain ⟨notes, _, hg⟩ := bind_eq_ok.mp hg
  obtain rfl := pure_eq_ok.mp hg
  exact ⟨h.index_eq, h.name_eq, h.role_eq, h.channel_eq, h.program_eq⟩

theorem programSound_snd (program : Option Int) :
    (programSound program).2 = program.all fun p => p < 0 || 127 < p := by
  cases program with
  | none => rfl
  | some p =>
    by_cases hneg : p < 0
    · simp [programSound, familySound, hneg]
    · by_cases hbig : 127 < p
      · have hnone : families[p.toNat / 8]? = none := by
          rw [List.getElem?_eq_none_iff]
          change 16 ≤ p.toNat / 8
          omega
        simp [programSound, familySound, hneg, hbig, hnone]
      · have hsome : p.toNat / 8 < families.length := by
          change p.toNat / 8 < 16
          omega
        simp [programSound, familySound, hneg, hbig, List.getElem?_eq_getElem hsome]

theorem BeatTrack.IsOf.sound_snd {b : BeatTrack} {t : TickTrack} (h : b.IsOf t) :
    b.sound.2 = t.unmapped := by
  by_cases hdrum : t.mainChannel = some drumChannel
  · simp [sound, TickTrack.unmapped, h.role_eq, hdrum]
  · simp [sound, TickTrack.unmapped, h.role_eq, h.program_eq, hdrum, programSound_snd]

end Tracks

section Gathering

/-- A report as a track gets it first. -/
structure TickTrack.HasReport (t : TickTrack) (r : TrackReport) : Prop where
  index_eq : r.index = t.index
  name_eq : r.name = t.name
  skipped_eq : r.skipped = !t.sounds
  eq_of_skipped : t.sounds = false → r = .ofSkipped t.index t.name

/-- What tracks add to those that were gathered before: the ones with notes in beats, a report for
each, a skip for each without notes, and the repairs. -/
structure Gathered.Grows (ticksPerBeat : Int) (minDuration : Binary64) (g g' : Gathered)
    (ts : List TickTrack) (added : List (BeatTrack × Nat)) : Prop where
  added_ok : List.Forall₂ (fun t entry => t.inBeats ticksPerBeat minDuration = .ok entry)
    (ts.filter TickTrack.sounds) added
  tracks_eq : g'.tracks = g.tracks ++ added.map Prod.fst
  reports_eq : ∃ reports, g'.reports = g.reports ++ reports ∧
    List.Forall₂ TickTrack.HasReport ts reports
  collected : Notice.Collected g.notices → Notice.Collected g'.notices
  total_eq : ∀ code, Notice.total g'.notices code = Notice.total g.notices code +
    (if "track_skipped_no_notes" = code then (ts.countP (!·.sounds) : Int) else 0) +
    (if "overlap_repaired" = code then ((added.map Prod.snd).sum : Int) else 0)

variable {ticksPerBeat : Int} {minDuration : Binary64} {g g' g'' : Gathered}

theorem Gathered.addTrack_grows {t : TickTrack}
    (h : g.addTrack ticksPerBeat minDuration t = .ok g') :
    ∃ added, g.Grows ticksPerBeat minDuration g' [t] added := by
  unfold addTrack at h
  by_cases hsounds : t.sounds
  · have hnotes : t.notes.isEmpty = false := by simpa [TickTrack.sounds] using hsounds
    rw [if_neg (by simp [hnotes]), bind_eq_ok] at h
    obtain ⟨⟨b, changes⟩, hb, hg⟩ := h
    obtain rfl := pure_eq_ok.mp hg
    have hof := TickTrack.inBeats_isOf hb
    -- The only notice is that of the repairs, and a track without repairs has none.
    refine ⟨[(b, changes)], ?_, rfl, ⟨[b.report], rfl, ?_⟩, ?_, ?_⟩
    · simpa [hsounds] using hb
    · refine .cons ⟨hof.index_eq, hof.name_eq, by simp [BeatTrack.report, hsounds], ?_⟩ .nil
      exact fun hnone => absurd hsounds (by simp [hnone])
    · intro hcollected
      dsimp only
      split
      · next hpos => exact hcollected.add (Int.natCast_pos.mpr hpos)
      · exact hcollected
    · intro code
      by_cases hpos : 0 < changes
      · simp [hpos, Notice.overlapsRepaired, hsounds]
      · simp [hsounds, show changes = 0 by omega]
  · have hnotes : t.notes.isEmpty = true := by simpa [TickTrack.sounds] using hsounds
    rw [if_pos hnotes] at h
    obtain rfl := Except.ok.inj h
    refine ⟨[], ?_, by simp, ⟨_, rfl, ?_⟩, ?_, ?_⟩
    · simp [hsounds]
    · exact .cons ⟨rfl, rfl, by simp [TrackReport.ofSkipped, hsounds], fun _ => rfl⟩ .nil
    · exact fun hcollected => hcollected.add Int.one_pos
    · intro code
      simp [Notice.trackSkipped, hsounds]

theorem Gathered.Grows.trans {ts us : List TickTrack} {added more : List (BeatTrack × Nat)}
    (h : g.Grows ticksPerBeat minDuration g' ts added)
    (h' : g'.Grows ticksPerBeat minDuration g'' us more) :
    g.Grows ticksPerBeat minDuration g'' (ts ++ us) (added ++ more) where
  added_ok := by
    rw [List.filter_append]
    exact List.rel_append h.added_ok h'.added_ok
  tracks_eq := by rw [h'.tracks_eq, h.tracks_eq, List.map_append, List.append_assoc]
  reports_eq := by
    obtain ⟨reports, heq, hreports⟩ := h.reports_eq
    obtain ⟨reports', heq', hreports'⟩ := h'.reports_eq
    exact ⟨reports ++ reports', by rw [heq', heq, List.append_assoc],
      List.rel_append hreports hreports'⟩
  collected hcollected := h'.collected (h.collected hcollected)
  total_eq code := by
    rw [h'.total_eq, h.total_eq, List.countP_append, List.map_append, List.sum_append]
    push_cast
    split <;> split <;> omega

theorem Gathered.addTracks_grows {ts : List TickTrack}
    (h : ts.foldlM (·.addTrack ticksPerBeat minDuration) g = .ok g') :
    ∃ added, g.Grows ticksPerBeat minDuration g' ts added := by
  induction ts generalizing g with
  | nil =>
    obtain rfl := pure_eq_ok.mp h
    exact ⟨[], .nil, by simp, ⟨[], by simp, .nil⟩, id, by simp⟩
  | cons t ts ih =>
    rw [List.foldlM_cons, bind_eq_ok] at h
    obtain ⟨g₁, hadd, hrest⟩ := h
    obtain ⟨added, hadded⟩ := addTrack_grows hadd
    obtain ⟨more, hmore⟩ := ih hrest
    exact ⟨added ++ more, hadded.trans hmore⟩

end Gathering

section Reports

/-- A report as a track has it in the end: one without notes is skipped, and one with notes is
told as it sounds. -/
def TickTrack.IsReported (sounds : List SoundTrack) (t : TickTrack) (r : TrackReport) : Prop :=
  if t.sounds then ∃ s ∈ sounds, s.track.IsOf t ∧
    r = ⟨t.index, t.name, s.track.role, s.track.notes.length, s.track.channel, s.track.program,
      s.sound.instrument, false⟩
  else r = .ofSkipped t.index t.name

theorem TrackReport.update_of_skipped {r : TrackReport} (h : r.skipped) (sounds : List SoundTrack) :
    r.update sounds = r := by
  rw [update, h]

theorem TrackReport.update_skipped (r : TrackReport) (sounds : List SoundTrack) :
    (r.update sounds).skipped = r.skipped := by
  unfold update
  split <;> rfl

theorem TickTrack.HasReport.update {t : TickTrack} {r : TrackReport} {sounds : List SoundTrack}
    (h : t.HasReport r) (hsounds : t.sounds → ∃ s ∈ sounds, s.track.IsOf t)
    (hunique : ∀ s ∈ sounds, s.track.index = t.index → s.track.IsOf t) :
    t.IsReported sounds (r.update sounds) := by
  unfold IsReported
  split
  · next ht =>
    have hskipped : r.skipped = false := by simpa [ht] using h.skipped_eq
    obtain ⟨s, hs, hof⟩ := hsounds ht
    cases hfind : sounds.reverse.find? (·.track.index = r.index) with
    | none =>
      have hnone := List.find?_eq_none.mp hfind s (List.mem_reverse.mpr hs)
      rw [hof.index_eq, h.index_eq] at hnone
      simp at hnone
    | some s' =>
      have hs' := List.mem_reverse.mp (List.mem_of_find?_eq_some hfind)
      have hindex : s'.track.index = r.index := by simpa using List.find?_some hfind
      refine ⟨s', hs', hunique s' hs' (hindex.trans h.index_eq), ?_⟩
      -- It is the track itself that was found, since no other track has its index.
      simp only [TrackReport.update, hskipped, hfind]
      rw [h.index_eq, h.name_eq]
  · next ht =>
    have hskipped : r.skipped = true := by simpa [ht] using h.skipped_eq
    rw [TrackReport.update_of_skipped hskipped]
    exact h.eq_of_skipped (by simpa using ht)

theorem mem_isOf_unique {ts : List TickTrack} {sounds : List SoundTrack}
    (hindex : (ts.map TickTrack.index).Nodup)
    (hof : List.Forall₂ (fun t s => s.track.IsOf t) (ts.filter TickTrack.sounds) sounds)
    {t : TickTrack} (ht : t ∈ ts) {s : SoundTrack} (hs : s ∈ sounds)
    (hsame : s.track.index = t.index) : s.track.IsOf t := by
  obtain ⟨t', ht', hof'⟩ := exists_of_forall₂_right hof hs
  have heq : t' = t := List.inj_on_of_nodup_map hindex (List.mem_of_mem_filter ht') ht
    (hof'.index_eq.symm.trans hsame)
  rwa [heq] at hof'

/-- Each of the tracks kept has one report, in their order, and each with notes is imported. -/
structure TellsTracks (ts : List TickTrack) (base reports : List TrackReport)
    (sounds : List SoundTrack) : Prop where
  sounds_isOf : List.Forall₂ (fun t s => s.track.IsOf t) (ts.filter TickTrack.sounds) sounds
  reported : List.Forall₂ (TickTrack.IsReported sounds) ts reports
  skipped_iff : List.Forall₂ (fun t r => r.skipped = true ↔ t.notes = []) ts reports
  unchanged : List.Forall₂ (fun first last => first.skipped = true → last = first) base reports
  sum_length : sounds.length + reports.countP TrackReport.skipped = ts.length

variable {ts : List TickTrack} {base : List TrackReport} {sounds : List SoundTrack}

theorem countP_skipped (h : List.Forall₂ TickTrack.HasReport ts base) :
    (base.map (·.update sounds)).countP TrackReport.skipped = ts.countP (!·.sounds) := by
  rw [List.countP_map]
  refine countP_eq_of_forall₂ h fun t r hr => ?_
  rw [Function.comp_apply, TrackReport.update_skipped, hr.skipped_eq]

theorem tellsTracks_update (hindex : (ts.map TickTrack.index).Nodup)
    (hof : List.Forall₂ (fun t s => s.track.IsOf t) (ts.filter TickTrack.sounds) sounds)
    (h : List.Forall₂ TickTrack.HasReport ts base) :
    TellsTracks ts base (base.map (·.update sounds)) sounds where
  sounds_isOf := hof
  reported := by
    rw [List.forall₂_map_right_iff]
    refine ((List.forall₂_and_left _ _).mpr ⟨fun t ht => ht, h⟩).imp ?_
    rintro t r ⟨ht, hr⟩
    refine hr.update (fun hplays => ?_) fun s hs => mem_isOf_unique hindex hof ht hs
    exact exists_of_forall₂_right hof.flip (List.mem_filter.mpr ⟨ht, hplays⟩)
  skipped_iff := by
    rw [List.forall₂_map_right_iff]
    refine h.imp fun t r hr => ?_
    rw [TrackReport.update_skipped, hr.skipped_eq]
    simp [TickTrack.sounds]
  unchanged := by
    rw [List.forall₂_map_right_iff, List.forall₂_same]
    exact fun r _ hskipped => TrackReport.update_of_skipped hskipped _
  sum_length := by
    rw [countP_skipped h, ← hof.length_eq, ← List.countP_eq_length_filter]
    simpa using (List.length_eq_countP_add_countP TickTrack.sounds).symm

end Reports

section Imports

theorem Score.total_notices (score : Score) (options : ImportOptions) (code : String) :
    Notice.total (score.notices options) code =
      (if "tracks_truncated" = code then
        (score.tracks.length : Int) - (score.kept options).length else 0) +
      (if "tempo_changes_ignored" = code then ((score.tempos.length - 1 : Nat) : Int) else 0) +
      (if "time_signature_changes_ignored" = code then
        ((score.signatures.length - 1 : Nat) : Int) else 0) +
      (if "events_ignored" = code then max 0 score.ignored else 0) := by
  have hkept : (score.kept options).length ≤ score.tracks.length := List.length_take_le' _ _
  simp only [Score.notices, Notice.total_append]
  congr 1
  · congr 1
    · congr 1
      · exact Notice.total_given (fun _ => Int.ofNat_sub hkept) (by omega)
      · exact Notice.total_given (fun _ => rfl) (by omega)
    · exact Notice.total_given (fun _ => rfl) (by omega)
  · exact Notice.total_given (fun h => (max_eq_right h.le).symm) (by omega)

theorem Score.collected_notices (score : Score) (options : ImportOptions) :
    Notice.Collected (score.notices options) := by
  constructor
  · have hcodes : ((score.notices options).map Notice.code).Sublist ["tracks_truncated",
        "tempo_changes_ignored", "time_signature_changes_ignored", "events_ignored"] := by
      simp only [Score.notices, List.map_append]
      exact (((Notice.codes_given_sublist _ _).append (Notice.codes_given_sublist _ _)).append
        (Notice.codes_given_sublist _ _)).append (Notice.codes_given_sublist _ _)
    exact hcodes.nodup (by decide)
  · simp only [Score.notices, List.forall_mem_append]
    refine ⟨⟨⟨Notice.count_pos_given Int.natCast_pos.mpr, Notice.count_pos_given ?_⟩,
      Notice.count_pos_given ?_⟩, Notice.count_pos_given id⟩
    · simp only [Notice.tempoChanges]
      omega
    · simp only [Notice.signatureChanges]
      omega

/-- The notices tell under one code each what was dropped, skipped, passed over and repaired, and
have no notice of what was not. The repairs are those that bringing each track in beats took. -/
structure TellsLosses (score : Score) (options : ImportOptions) (skips : Nat)
    (notices : List Notice) : Prop where
  codes_nodup : (notices.map Notice.code).Nodup
  truncated : Notice.told notices "tracks_truncated" =
    Notice.shown (score.tracks.length - (score.kept options).length)
  skipped : Notice.told notices "track_skipped_no_notes" = Notice.shown skips
  unmapped : Notice.told notices "unmapped_instrument_fallback" =
    Notice.shown (((score.kept options).filter TickTrack.sounds).countP TickTrack.unmapped)
  tempos : Notice.told notices "tempo_changes_ignored" =
    Notice.shown (score.tempos.length - 1 : Nat)
  signatures : Notice.told notices "time_signature_changes_ignored" =
    Notice.shown (score.signatures.length - 1 : Nat)
  ignored : Notice.told notices "events_ignored" = Notice.shown (max 0 score.ignored)
  repaired : ∃ minDuration changes, gridStep options.division = .ok minDuration ∧
    List.Forall₂ (fun t n => ∃ b, t.inBeats score.ticksPerBeat minDuration = .ok (b, n))
      ((score.kept options).filter TickTrack.sounds) changes ∧
    Notice.told notices "overlap_repaired" = Notice.shown (changes.sum : Nat)

/-- What an import tells of its tracks and of what it passed over. The reports were `base` before
the tracks had their sounds. -/
structure Accounted (score : Score) (options : ImportOptions) (base reports : List TrackReport)
    (sounds : List SoundTrack) (notices : List Notice) : Prop where
  kept_length : ((score.kept options).length : Int) =
    min (score.tracks.length : Int) (max 0 options.maxTracks)
  reports_index : reports.map TrackReport.index = List.range (score.kept options).length
  tracks : TellsTracks (score.kept options) base reports sounds
  losses : TellsLosses score options (reports.countP TrackReport.skipped) notices

theorem Score.inBeats_grows {score : Score} {filename : String} {options : ImportOptions}
    {beats : BeatScore} {notices : List Notice} {base : List TrackReport}
    (h : score.inBeats filename options = .ok (beats, notices, base)) :
    ∃ minDuration added, gridStep options.division = .ok minDuration ∧
      Gathered.Grows score.ticksPerBeat minDuration { notices := score.notices options }
        ⟨beats.tracks, notices, base⟩ (score.kept options) added := by
  simp only [inBeats, bind_eq_ok, pure_eq_ok] at h
  obtain ⟨_, _, _, _, _, _, minDuration, hmin, gathered, hgather, _, _, _, _, hscore⟩ := h
  obtain ⟨rfl, rfl, rfl⟩ := hscore
  obtain ⟨added, hadded⟩ := Gathered.addTracks_grows hgather
  exact ⟨minDuration, added, hmin, hadded⟩

theorem Gathered.Grows.isOf {score : Score} {minDuration : Binary64} {notices : List Notice}
    {gathered : Gathered} {ts : List TickTrack} {added : List (BeatTrack × Nat)}
    (h : Gathered.Grows score.ticksPerBeat minDuration { notices } gathered ts added) :
    List.Forall₂ (fun t b => b.IsOf t) (ts.filter TickTrack.sounds) gathered.tracks := by
  rw [show gathered.tracks = added.map Prod.fst from h.tracks_eq, List.forall₂_map_right_iff]
  exact h.added_ok.imp fun t entry hentry => TickTrack.inBeats_isOf hentry

theorem BeatScore.onGrid_isOf {beats gridded : BeatScore} {options : ImportOptions}
    {ts : List TickTrack} (h : beats.onGrid options = .ok gridded)
    (hof : List.Forall₂ (fun t b => b.IsOf t) ts beats.tracks) :
    List.Forall₂ (fun t g => g.IsOf t) ts gridded.tracks := by
  simp only [onGrid, bind_eq_ok, pure_eq_ok] at h
  obtain ⟨step, _, tracks, htracks, _, _, rfl⟩ := h
  refine (forall₂_comp hof (mapM_eq_ok.mp htracks)).imp ?_
  rintro t g ⟨b, hb, hg⟩
  exact hb.onGrid hg

/-- The notices of an import: those of the score, then those of its tracks, then that of its
sounds. -/
theorem Gathered.Grows.total_merged {score : Score} {options : ImportOptions}
    {minDuration : Binary64} {gathered : Gathered} {ts : List TickTrack}
    {added : List (BeatTrack × Nat)} {gridded : BeatScore}
    (h : Gathered.Grows score.ticksPerBeat minDuration { notices := score.notices options }
      gathered ts added)
    (hof : List.Forall₂ (fun t g => g.IsOf t) (ts.filter TickTrack.sounds) gridded.tracks)
    (base : List TrackReport) (code : String) :
    Notice.total (Notice.addAll (Notice.addAll [] gathered.notices) (gridded.withSounds base).2.1)
        code =
      Notice.total (score.notices options) code +
      (if "track_skipped_no_notes" = code then (ts.countP (!·.sounds) : Int) else 0) +
      (if "overlap_repaired" = code then ((added.map Prod.snd).sum : Int) else 0) +
      (if "unmapped_instrument_fallback" = code then
        ((ts.filter TickTrack.sounds).countP TickTrack.unmapped : Int) else 0) := by
  have hfallbacks : gridded.tracks.countP (fun t => t.sound.2) =
      (ts.filter TickTrack.sounds).countP TickTrack.unmapped :=
    countP_eq_of_forall₂ hof fun _ _ h => h.sound_snd
  have hlast : Notice.total (gridded.withSounds base).2.1 code =
      if "unmapped_instrument_fallback" = code then
        ((ts.filter TickTrack.sounds).countP TickTrack.unmapped : Int) else 0 := by
    rw [← hfallbacks]
    exact Notice.total_given (fun _ => rfl) (by omega)
  rw [Notice.total_addAll, Notice.total_addAll, Notice.total_nil, h.total_eq, hlast, zero_add]

theorem Gathered.Grows.collected_merged {score : Score} {options : ImportOptions}
    {minDuration : Binary64} {gathered : Gathered} {ts : List TickTrack}
    {added : List (BeatTrack × Nat)}
    (h : Gathered.Grows score.ticksPerBeat minDuration { notices := score.notices options }
      gathered ts added) (gridded : BeatScore) (base : List TrackReport) :
    Notice.Collected
      (Notice.addAll (Notice.addAll [] gathered.notices) (gridded.withSounds base).2.1) := by
  have hgathered := h.collected (score.collected_notices options)
  refine (Notice.collected_nil.addAll hgathered.count_pos).addAll ?_
  exact Notice.count_pos_given Int.natCast_pos.mpr

theorem Gathered.Grows.tellsLosses {score : Score} {options : ImportOptions}
    {minDuration : Binary64} {gathered : Gathered} {added : List (BeatTrack × Nat)}
    {gridded : BeatScore} (hmin : gridStep options.division = .ok minDuration)
    (h : Gathered.Grows score.ticksPerBeat minDuration { notices := score.notices options }
      gathered (score.kept options) added)
    (hof : List.Forall₂ (fun t g => g.IsOf t) ((score.kept options).filter TickTrack.sounds)
      gridded.tracks) (base : List TrackReport) :
    TellsLosses score options ((score.kept options).countP (!·.sounds))
      (Notice.addAll (Notice.addAll [] gathered.notices) (gridded.withSounds base).2.1) := by
  have hcollected := h.collected_merged gridded base
  have htold := hcollected.told_eq
  simp only [h.total_merged hof base, score.total_notices options] at htold
  exact {
    codes_nodup := hcollected.codes_nodup
    truncated := by simp [htold]
    skipped := by simp [htold]
    unmapped := by simp [htold]
    tempos := by simp [htold]
    signatures := by simp [htold]
    ignored := by simp [htold]
    repaired := by
      refine ⟨minDuration, added.map Prod.snd, hmin, ?_, by simp [htold]⟩
      rw [List.forall₂_map_right_iff]
      exact h.added_ok.imp fun t entry hentry => ⟨entry.1, hentry⟩ }

theorem Score.convert_parts {score : Score} {filename : String} {options : ImportOptions}
    {beats gridded : BeatScore} {notices : List Notice} {base : List TrackReport} {result : Import}
    (hbeats : score.inBeats filename options = .ok (beats, notices, base))
    (hgrid : beats.onGrid options = .ok gridded)
    (h : score.convert filename options = .ok result) :
    result.tracks = (gridded.withSounds base).1.length ∧
      result.reports = (gridded.withSounds base).2.2 ∧
      result.notices = Notice.addAll (Notice.addAll [] notices) (gridded.withSounds base).2.1 := by
  simp only [convert, BeatScore.convert, bind_eq_ok, pure_eq_ok] at h
  obtain ⟨⟨beats', notices', base'⟩, hbeats', gridded', hgrid', _, _, rfl⟩ := h
  obtain ⟨rfl, rfl, rfl⟩ : beats = beats' ∧ notices = notices' ∧ base = base' := by
    simpa using hbeats.symm.trans hbeats'
  obtain rfl := Except.ok.inj (hgrid.symm.trans hgrid')
  exact ⟨rfl, rfl, rfl⟩

/-- An import accounts for every track of the score and for all that it passed over. -/
theorem Score.import_accounts {score : Score} {filename : String} {options : ImportOptions}
    {beats gridded : BeatScore} {notices : List Notice} {base : List TrackReport}
    (hindex : score.tracks.map TickTrack.index = List.range score.tracks.length)
    (hbeats : score.inBeats filename options = .ok (beats, notices, base))
    (hgrid : beats.onGrid options = .ok gridded) :
    Accounted score options base (gridded.withSounds base).2.2 (gridded.withSounds base).1
      (Notice.addAll (Notice.addAll [] notices) (gridded.withSounds base).2.1) ∧
    ∀ result, score.convert filename options = .ok result →
      result.tracks = (gridded.withSounds base).1.length ∧
      result.reports = (gridded.withSounds base).2.2 ∧
      result.notices = Notice.addAll (Notice.addAll [] notices) (gridded.withSounds base).2.1 := by
  obtain ⟨minDuration, added, hmin, hgrows⟩ := Score.inBeats_grows hbeats
  have hkept : (score.kept options).map TickTrack.index =
      List.range (score.kept options).length := by
    rw [Score.kept, List.map_take, hindex, List.take_range, List.length_take]
  have hnodup : ((score.kept options).map TickTrack.index).Nodup := hkept ▸ List.nodup_range
  obtain ⟨reports, hbase, hreports⟩ := hgrows.reports_eq
  obtain rfl : base = reports := hbase
  have hgridded := BeatScore.onGrid_isOf hgrid hgrows.isOf
  have hsounds : List.Forall₂ (fun t s => s.track.IsOf t)
      ((score.kept options).filter TickTrack.sounds) (gridded.withSounds base).1 := by
    rw [BeatScore.withSounds, List.forall₂_map_right_iff]
    exact hgridded
  have hlosses := hgrows.tellsLosses hmin hgridded base
  rw [← countP_skipped hreports] at hlosses
  refine ⟨⟨?_, ?_, tellsTracks_update hnodup hsounds hreports, hlosses⟩, ?_⟩
  · rw [Score.kept, List.length_take]
    omega
  · rw [BeatScore.map_index_reports, ← hkept]
    exact map_eq_of_forall₂ hreports fun t r h => h.index_eq
  · exact fun result h => Score.convert_parts hbeats hgrid h

/-- A track too many, one without notes, and a change of tempo. -/
def crowdedScore : Score :=
  ⟨1, 480, [leadTrack, ⟨1, "Rest", [], 0⟩, ⟨2, "Bass", leadTrack.notes, 0⟩], [(0, 120), (480, 90)],
    [], 3⟩

def twoTracks : ImportOptions := { maxTracks := 2 }

theorem crowdedScore_inBeats : ∃ beats notices base,
    crowdedScore.inBeats "crowd.mid" twoTracks = .ok (beats, notices, base) ∧
      ∃ gridded, beats.onGrid twoTracks = .ok gridded := by
  have hstep : gridStep twoTracks.division = .ok 0.0625 := by decide +kernel
  have hmeter : crowdedScore.beatsPerBar = .ok (.real 4) := by decide +kernel
  have hbars : barCount (totalBeats [leadBeats]) (.real 4) = .ok 1 := by decide +kernel
  obtain ⟨gathered, hgather, htracks⟩ : ∃ gathered,
      crowdedScore.gather twoTracks 0.0625 = .ok gathered ∧ gathered.tracks = [leadBeats] :=
    ⟨_, bind_eq_ok.mpr ⟨_, bind_eq_ok.mpr ⟨_, leadTrack_inBeats, rfl⟩, rfl⟩, rfl⟩
  have hsome : gathered.checkTracks = .ok () := by rw [Gathered.checkTracks, htracks]; rfl
  rw [← htracks] at hbars
  refine ⟨_, _, _, bind_eq_ok.mpr ⟨_, rfl, bind_eq_ok.mpr ⟨_, rfl, bind_eq_ok.mpr ⟨_, hmeter,
    bind_eq_ok.mpr ⟨_, hstep, bind_eq_ok.mpr ⟨_, hgather, bind_eq_ok.mpr ⟨_, hsome,
      bind_eq_ok.mpr ⟨_, hbars, rfl⟩⟩⟩⟩⟩⟩⟩, ?_⟩
  rw [htracks] at hbars
  refine ⟨_, bind_eq_ok.mpr ⟨_, hstep, bind_eq_ok.mpr ⟨[leadBeats], ?_,
    bind_eq_ok.mpr ⟨_, hbars, rfl⟩⟩⟩⟩
  rw [htracks]
  exact bind_eq_ok.mpr ⟨_, leadBeats_onGrid, rfl⟩

theorem crowdedScore_accounts : ∃ sounds notices base reports,
    Accounted crowdedScore twoTracks base reports sounds notices ∧
    Notice.told notices "tracks_truncated" = some 1 ∧
    Notice.told notices "tempo_changes_ignored" = some 1 ∧
    Notice.told notices "unmapped_instrument_fallback" = some 1 ∧
    Notice.told notices "time_signature_changes_ignored" = none := by
  obtain ⟨beats, notices, base, hbeats, gridded, hgrid⟩ := crowdedScore_inBeats
  obtain ⟨haccounts, _⟩ := Score.import_accounts (by decide) hbeats hgrid
  exact ⟨_, _, _, _, haccounts, haccounts.losses.truncated.trans (by decide),
    haccounts.losses.tempos.trans (by decide), haccounts.losses.unmapped.trans (by decide),
    haccounts.losses.signatures.trans (by decide)⟩

end Imports

end Midi
end PatternLoom
