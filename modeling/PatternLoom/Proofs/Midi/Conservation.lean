import PatternLoom.Midi.Import
import PatternLoom.Proofs.Binary64.Number
import PatternLoom.Proofs.Midi.Pairing
import PatternLoom.Proofs.Result

/-! An import keeps the notes of its tracks. Times change from stage to stage, and with them
the order, but what the notes of a track are is the same in ticks, in beats, on the grid and
in the program. -/

namespace PatternLoom
namespace Midi

def BeatNote.label (n : BeatNote) : Label := ⟨n.pitch, n.velocity, n.channel, n.program⟩

/-- What a stage keeps of a track: its index, and its notes but for their times and order. -/
structure BeatTrack.Keeps (t : BeatTrack) (index : Nat) (labels : List Label) : Prop where
  index_eq : t.index = index
  labels_perm : (t.notes.map BeatNote.label).Perm labels

theorem sortNotes_eq_mergeSort {notes : List BeatNote} (h : ∀ n ∈ notes, n.start.isNan = false) :
    sortNotes notes = notes.mergeSort fun a b => !b.precedes a := by
  refine sortBy_eq_mergeSort fun n hn => ?_
  rw [h n hn]
  rfl

theorem sortNotes_perm {notes : List BeatNote} (h : ∀ n ∈ notes, n.start.isNan = false) :
    (sortNotes notes).Perm notes := by
  rw [sortNotes_eq_mergeSort h]
  exact List.mergeSort_perm _ _

theorem TickNote.inBeats_eq_ok {n : TickNote} {ticksPerBeat : Int} {minDuration : Binary64}
    {b : BeatNote} (h : n.inBeats ticksPerBeat minDuration = .ok b) :
    b.label = n.label ∧ b.start.isFinite := by
  simp only [inBeats, bind_eq_ok, pure_eq_ok] at h
  obtain ⟨start, hstart, duration, _, rfl⟩ := h
  exact ⟨rfl, Binary64.isFinite_of_ofQuotient hstart⟩

theorem repairNote_label (minDuration : Binary64) (ends : Ends) (n : BeatNote) :
    (repairNote minDuration ends n).1.label = n.label := by
  -- Both branches keep everything but the times.
  exact (apply_ite BeatNote.label _ _ _).trans (ite_self _)

theorem repairFrom_label (minDuration : Binary64) (ends : Ends) (notes : List BeatNote) :
    (repairFrom minDuration ends notes).1.map BeatNote.label = notes.map BeatNote.label := by
  induction notes generalizing ends with
  | nil => rfl
  | cons n notes ih =>
    rw [repairFrom, List.map_cons, List.map_cons, repairNote_label, ih]

theorem TickTrack.inBeats_eq_ok {t : TickTrack} {ticksPerBeat : Int} {minDuration : Binary64}
    {b : BeatTrack} {changes : Nat} (h : t.inBeats ticksPerBeat minDuration = .ok (b, changes)) :
    b.Keeps t.index (t.notes.map TickNote.label) := by
  simp only [inBeats, bind_eq_ok, pure_eq_ok] at h
  obtain ⟨notes, hnotes, hb⟩ := h
  have hlabels : notes.map BeatNote.label = t.notes.map TickNote.label :=
    map_eq_of_forall₂ (mapM_eq_ok.mp hnotes) fun n b hn => (TickNote.inBeats_eq_ok hn).1
  have hstarts : ∀ n ∈ notes, n.start.isNan = false := by
    intro n hn
    obtain ⟨_, _, hbeat⟩ := exists_of_forall₂_right (mapM_eq_ok.mp hnotes) hn
    exact Binary64.isNan_of_isFinite (TickNote.inBeats_eq_ok hbeat).2
  obtain ⟨rfl, _⟩ := Prod.mk.inj hb
  refine ⟨rfl, ?_⟩
  dsimp only
  rw [repairOverlaps, repairFrom_label, ← hlabels]
  exact (sortNotes_perm hstarts).map _

/-- A track is added with the notes it had, or left out if it had none. The report counts
them in both cases. -/
theorem Gathered.addTrack_eq_ok {g g' : Gathered} {ticksPerBeat : Int} {minDuration : Binary64}
    {t : TickTrack} (h : g.addTrack ticksPerBeat minDuration t = .ok g') :
    ∃ tracks r, g'.tracks = g.tracks ++ tracks ∧ g'.reports = g.reports ++ [r] ∧
      r.index = t.index ∧ r.notes = t.notes.length ∧
      List.Forall₂ (fun t b => b.Keeps t.index (t.notes.map TickNote.label))
        ([t].filter (!·.notes.isEmpty)) tracks := by
  unfold addTrack at h
  cases hempty : t.notes.isEmpty with
  | true =>
    rw [if_pos hempty] at h
    obtain rfl := Except.ok.inj h
    refine ⟨[], _, (List.append_nil _).symm, rfl, rfl, ?_, ?_⟩
    · rw [List.isEmpty_iff.mp hempty]
      rfl
    · simp [hempty]
  | false =>
    rw [if_neg (by simp [hempty]), bind_eq_ok] at h
    obtain ⟨⟨b, changes⟩, hb, hg⟩ := h
    obtain rfl := pure_eq_ok.mp hg
    have hkeeps := TickTrack.inBeats_eq_ok hb
    refine ⟨[b], b.report, rfl, rfl, hkeeps.index_eq, ?_, ?_⟩
    · simpa [BeatTrack.report] using hkeeps.labels_perm.length_eq
    · simpa [hempty] using hkeeps

theorem Gathered.addTracks_eq_ok {g g' : Gathered} {ticksPerBeat : Int} {minDuration : Binary64}
    {ts : List TickTrack} (h : ts.foldlM (·.addTrack ticksPerBeat minDuration) g = .ok g') :
    ∃ tracks reports, g'.tracks = g.tracks ++ tracks ∧ g'.reports = g.reports ++ reports ∧
      List.Forall₂ (fun t r => r.index = t.index ∧ r.notes = t.notes.length) ts reports ∧
      List.Forall₂ (fun t b => b.Keeps t.index (t.notes.map TickNote.label))
        (ts.filter (!·.notes.isEmpty)) tracks := by
  induction ts generalizing g with
  | nil =>
    obtain rfl := pure_eq_ok.mp h
    exact ⟨[], [], by simp, by simp, .nil, .nil⟩
  | cons t ts ih =>
    rw [List.foldlM_cons, bind_eq_ok] at h
    obtain ⟨g₁, hadd, hrest⟩ := h
    obtain ⟨tracks, r, htracks, hreports, hindex, hnotes, hadded⟩ := addTrack_eq_ok hadd
    obtain ⟨tracks', reports, htracks', hreports', hreport, hadded'⟩ := ih hrest
    refine ⟨tracks ++ tracks', r :: reports, ?_, ?_, .cons ⟨hindex, hnotes⟩ hreport, ?_⟩
    · rw [htracks', htracks, List.append_assoc]
    · rw [hreports', hreports, List.append_assoc, List.singleton_append]
    · rw [← List.singleton_append, List.filter_append]
      exact List.rel_append hadded hadded'

theorem BeatNote.onGrid_eq_ok {n m : BeatNote} {step : Binary64} (hstep : step.isFinite)
    (h : n.onGrid step = .ok m) : m.label = n.label ∧ m.start.isNan = false := by
  simp only [onGrid, snap, bind_eq_ok, pure_eq_ok] at h
  obtain ⟨_, ⟨_, _, _, _, x, hx, rfl⟩, _, _, rfl⟩ := h
  exact ⟨rfl, Binary64.isNan_mul (Binary64.isFinite_of_ofInt hx) hstep⟩

theorem notesOnGrid_eq_ok {notes gridded : List BeatNote} {step : Binary64}
    (hstep : step.isFinite) (h : notesOnGrid notes step = .ok gridded) :
    (gridded.map BeatNote.label).Perm (notes.map BeatNote.label) ∧
      ∀ n ∈ gridded, n.start.isNan = false := by
  simp only [notesOnGrid, bind_eq_ok, pure_eq_ok] at h
  obtain ⟨moved, hmoved, rfl⟩ := h
  have hlabels : moved.map BeatNote.label = notes.map BeatNote.label :=
    map_eq_of_forall₂ (mapM_eq_ok.mp hmoved) fun n m hm => (BeatNote.onGrid_eq_ok hstep hm).1
  have hstarts : ∀ n ∈ moved, n.start.isNan = false := by
    intro n hn
    obtain ⟨_, _, hgrid⟩ := exists_of_forall₂_right (mapM_eq_ok.mp hmoved) hn
    exact (BeatNote.onGrid_eq_ok hstep hgrid).2
  have hsorted := sortNotes_perm hstarts
  refine ⟨?_, fun n hn => hstarts n (hsorted.mem_iff.mp hn)⟩
  rw [← hlabels]
  exact hsorted.map _

theorem BeatTrack.onGrid_eq_ok {t g : BeatTrack} {step : Binary64} (hstep : step.isFinite)
    (h : t.onGrid step = .ok g) : g.Keeps t.index (t.notes.map BeatNote.label) ∧
      ∀ n ∈ g.notes, n.start.isNan = false := by
  simp only [onGrid, bind_eq_ok, pure_eq_ok] at h
  obtain ⟨notes, hnotes, rfl⟩ := h
  obtain ⟨hperm, hstarts⟩ := notesOnGrid_eq_ok hstep hnotes
  exact ⟨⟨rfl, hperm⟩, hstarts⟩

theorem BeatScore.onGrid_eq_ok {score gridded : BeatScore} {options : ImportOptions}
    (h : score.onGrid options = .ok gridded) :
    List.Forall₂ (fun t g => g.Keeps t.index (t.notes.map BeatNote.label) ∧
      ∀ n ∈ g.notes, n.start.isNan = false) score.tracks gridded.tracks := by
  simp only [onGrid, bind_eq_ok, pure_eq_ok] at h
  obtain ⟨step, hstep, tracks, htracks, _, _, rfl⟩ := h
  obtain ⟨step', hstep', hfinite⟩ := gridStep_eq_ok options.division
  obtain rfl := Except.ok.inj (hstep.symm.trans hstep')
  exact (mapM_eq_ok.mp htracks).imp fun t g htg => BeatTrack.onGrid_eq_ok hfinite htg

theorem Score.inBeats_eq_ok {score : Score} {filename : String} {options : ImportOptions}
    {beats : BeatScore} {notices : List Notice} {reports : List TrackReport}
    (h : score.inBeats filename options = .ok (beats, notices, reports)) :
    List.Forall₂ (fun t r => r.index = t.index ∧ r.notes = t.notes.length)
      (score.kept options) reports ∧
    List.Forall₂ (fun t b => b.Keeps t.index (t.notes.map TickNote.label))
      ((score.kept options).filter (!·.notes.isEmpty)) beats.tracks := by
  simp only [inBeats, bind_eq_ok, pure_eq_ok] at h
  obtain ⟨_, _, _, _, _, _, minDuration, _, gathered, hgather, _, _, _, _, hscore⟩ := h
  obtain ⟨rfl, -, rfl⟩ := hscore
  obtain ⟨tracks, reports, htracks, hreports, hcounted, hlabelled⟩ :=
    Gathered.addTracks_eq_ok hgather
  rw [htracks, hreports]
  exact ⟨hcounted, hlabelled⟩

theorem getElem?_numberedTracks (index : Nat) (tracks : List (List Event)) (i : Nat) :
    (numberedTracks index tracks)[i]? = tracks[i]?.map (TickTrack.ofEvents (index + i)) := by
  induction tracks generalizing index i with
  | nil => simp [numberedTracks]
  | cons events tracks ih =>
    cases i with
    | zero => simp [numberedTracks]
    | succ i =>
      rw [numberedTracks, List.getElem?_cons_succ, ih, List.getElem?_cons_succ]
      congr 2
      omega

theorem numberedTracks_eq (tracks : List (List Event)) : numberedTracks 0 tracks =
    (List.range tracks.length).map fun i => TickTrack.ofEvents i (tracks[i]?.getD []) := by
  apply List.ext_getElem?
  intro i
  rw [getElem?_numberedTracks, List.getElem?_map, Nat.zero_add]
  by_cases hi : i < tracks.length
  · simp [hi]
  · simp [hi]

/-- The labels are those of the notes that the events of a track begin. -/
def File.Begins (file : File) (index : Nat) (labels : List Label) : Prop :=
  ∃ events, file.tracks[index]? = some events ∧ labels.Perm (pressed events)

/-- The number of notes is that of the note-ons of a track that are not silent. -/
def File.Counts (file : File) (index notes : Nat) : Prop :=
  ∃ events, file.tracks[index]? = some events ∧ notes = events.countP Event.isPress

theorem File.Begins.counts {file : File} {index : Nat} {labels : List Label}
    (h : file.Begins index labels) : file.Counts index labels.length := by
  obtain ⟨events, hevents, hperm⟩ := h
  exact ⟨events, hevents, hperm.length_eq.trans (length_pressed events)⟩

/-- The tracks that are read. -/
def File.keptIndices (file : File) (options : ImportOptions) : List Nat :=
  (List.range file.tracks.length).take options.maxTracks.toNat

/-- The tracks that are imported: of those read the ones in which a note begins. -/
def File.importedIndices (file : File) (options : ImportOptions) : List Nat :=
  (file.keptIndices options).filter fun i => (file.tracks[i]?.getD []).any Event.isPress

/-- Every stage has each imported track once, with the notes that its events begin. Reports
and comments give their number. -/
structure Conserved (file : File) (options : ImportOptions) (score : Score)
    (beats gridded : BeatScore) (sounds : List SoundTrack) (reports : List TrackReport) :
    Prop where
  score_indices : score.tracks.map TickTrack.index = List.range file.tracks.length
  beats_indices : beats.tracks.map BeatTrack.index = file.importedIndices options
  gridded_indices : gridded.tracks.map BeatTrack.index = file.importedIndices options
  sounds_indices : sounds.map (·.track.index) = file.importedIndices options
  reports_indices : reports.map TrackReport.index = file.keptIndices options
  score_notes : ∀ t ∈ score.tracks, file.Begins t.index (t.notes.map TickNote.label)
  beats_notes : ∀ t ∈ beats.tracks, file.Begins t.index (t.notes.map BeatNote.label)
  gridded_notes : ∀ t ∈ gridded.tracks, file.Begins t.index (t.notes.map BeatNote.label)
  sounds_notes : ∀ s ∈ sounds, file.Begins s.track.index (s.track.notes.map BeatNote.label)
  reports_count : ∀ r ∈ reports, file.Counts r.index r.notes
  comments_count : ∀ s ∈ sounds, ∃ notes, file.Counts s.track.index notes ∧
    s.comment = "// " ++ s.title ++ " (" ++ toString notes ++ " notes)"
  comments_shown : ∀ filename code, gridded.program sounds filename options = .ok code →
    ∃ opening tempo stack, code =
      "\n".intercalate (opening ++ sounds.map SoundTrack.comment ++ [tempo]) ++ stack

theorem Score.ofFile_tracks {format : Nat} {file : File} {score : Score}
    (h : Score.ofFile format file = .ok score) : score.tracks = numberedTracks 0 file.tracks := by
  simp only [ofFile, bind_eq_ok, pure_eq_ok] at h
  obtain ⟨_, _, rfl⟩ := h
  rfl

theorem isEmpty_notes_ofEvents (index : Nat) (events : List Event) :
    (!(TickTrack.ofEvents index events).notes.isEmpty) = events.any Event.isPress := by
  have hlength := (map_label_ofEvents index events).length_eq
  rw [List.length_map, length_pressed] at hlength
  rw [Bool.eq_iff_iff, Bool.not_eq_true', ← Bool.not_eq_true, List.isEmpty_iff_length_eq_zero,
    hlength, List.any_eq_true]
  exact Nat.pos_iff_ne_zero.symm.trans List.countP_pos_iff

/-- The tracks that are left have the indices they had in the file. -/
theorem map_index_kept {format : Nat} {file : File} {score : Score}
    (h : Score.ofFile format file = .ok score) (options : ImportOptions) :
    (score.kept options).map TickTrack.index = file.keptIndices options ∧
      ((score.kept options).filter (!·.notes.isEmpty)).map TickTrack.index =
        file.importedIndices options := by
  have hkept : score.kept options = (file.keptIndices options).map fun i =>
      TickTrack.ofEvents i (file.tracks[i]?.getD []) := by
    rw [Score.kept, Score.ofFile_tracks h, numberedTracks_eq, File.keptIndices, List.map_take]
  have hindex : (TickTrack.index ∘ fun i => TickTrack.ofEvents i (file.tracks[i]?.getD [])) = id :=
    rfl
  constructor
  · rw [hkept, List.map_map, hindex, List.map_id]
  · rw [hkept, List.filter_map, List.map_map, hindex, List.map_id, File.importedIndices]
    congr 1
    funext i
    exact isEmpty_notes_ofEvents _ _

theorem File.Begins.of_keeps {file : File} {t : BeatTrack} {index : Nat} {labels : List Label}
    (h : file.Begins index labels) (hk : t.Keeps index labels) :
    file.Begins t.index (t.notes.map BeatNote.label) := by
  obtain ⟨events, hevents, hperm⟩ := h
  rw [hk.index_eq]
  exact ⟨events, hevents, hk.labels_perm.trans hperm⟩

theorem Score.ofFile_begins {format : Nat} {file : File} {score : Score}
    (h : Score.ofFile format file = .ok score) :
    ∀ t ∈ score.tracks, file.Begins t.index (t.notes.map TickNote.label) := by
  intro t ht
  rw [Score.ofFile_tracks h] at ht
  obtain ⟨i, hi⟩ := List.mem_iff_getElem?.mp ht
  rw [getElem?_numberedTracks, Nat.zero_add] at hi
  obtain ⟨events, hevents, rfl⟩ := Option.map_eq_some_iff.mp hi
  exact ⟨events, hevents, map_label_ofEvents i events⟩

theorem TrackReport.update_index (r : TrackReport) (sounds : List SoundTrack) :
    (r.update sounds).index = r.index := by
  unfold update
  split <;> rfl

theorem TrackReport.update_counts {file : File} {r : TrackReport} {sounds : List SoundTrack}
    (hr : file.Counts r.index r.notes)
    (hs : ∀ s ∈ sounds, file.Begins s.track.index (s.track.notes.map BeatNote.label)) :
    file.Counts (r.update sounds).index (r.update sounds).notes := by
  rw [update_index]
  unfold update
  split
  · rename_i s _ hfind
    have hmem := hs s (List.mem_reverse.mp (List.mem_of_find?_eq_some hfind))
    have hindex : s.track.index = r.index := by simpa using List.find?_some hfind
    have hcounts := hmem.counts
    rw [hindex, List.length_map] at hcounts
    exact hcounts
  · exact hr

theorem BeatScore.map_index_withSounds (score : BeatScore) (reports : List TrackReport) :
    (score.withSounds reports).1.map (·.track.index) = score.tracks.map BeatTrack.index :=
  List.map_map

theorem BeatScore.map_index_reports (score : BeatScore) (reports : List TrackReport) :
    (score.withSounds reports).2.2.map TrackReport.index = reports.map TrackReport.index := by
  rw [withSounds, List.map_map]
  exact List.map_congr_left fun r _ => r.update_index _

theorem BeatScore.program_shows {score : BeatScore} {sounds : List SoundTrack}
    {filename code : String} {options : ImportOptions}
    (h : score.program sounds filename options = .ok code) : ∃ opening tempo stack, code =
      "\n".intercalate (opening ++ sounds.map SoundTrack.comment ++ [tempo]) ++ stack := by
  obtain ⟨members, _, hcode⟩ := bind_eq_ok.mp h
  rw [pure_eq_ok, String.append_assoc, String.append_assoc] at hcode
  exact ⟨_, _, _, hcode.symm⟩

/-- The tracks in beats and the reports are of the tracks and the notes in the file. -/
theorem Score.inBeats_begins {format : Nat} {file : File} {score : Score} {filename : String}
    {options : ImportOptions} {beats : BeatScore} {notices : List Notice}
    {reports : List TrackReport} (hscore : Score.ofFile format file = .ok score)
    (hbeats : score.inBeats filename options = .ok (beats, notices, reports)) :
    (beats.tracks.map BeatTrack.index = file.importedIndices options ∧
      ∀ b ∈ beats.tracks, file.Begins b.index (b.notes.map BeatNote.label)) ∧
    (reports.map TrackReport.index = file.keptIndices options ∧
      ∀ r ∈ reports, file.Counts r.index r.notes) := by
  obtain ⟨hcounted, hlabelled⟩ := Score.inBeats_eq_ok hbeats
  obtain ⟨hkept, himported⟩ := map_index_kept hscore options
  have hbegins : ∀ t ∈ score.kept options, file.Begins t.index (t.notes.map TickNote.label) :=
    fun t ht => Score.ofFile_begins hscore t (List.mem_of_mem_take ht)
  refine ⟨⟨?_, ?_⟩, ?_, ?_⟩
  · exact (map_eq_of_forall₂ hlabelled fun _ _ h => h.index_eq).trans himported
  · intro b hb
    obtain ⟨t, ht, hkeeps⟩ := exists_of_forall₂_right hlabelled hb
    exact (hbegins t (List.mem_of_mem_filter ht)).of_keeps hkeeps
  · exact (map_eq_of_forall₂ hcounted fun _ _ h => h.1).trans hkept
  · intro r hr
    obtain ⟨t, ht, hindex, hnotes⟩ := exists_of_forall₂_right hcounted hr
    have hcounts := (hbegins t ht).counts
    rw [List.length_map] at hcounts
    rwa [hindex, hnotes]

theorem BeatScore.onGrid_begins {file : File} {beats gridded : BeatScore}
    {options : ImportOptions} (h : beats.onGrid options = .ok gridded)
    (hbegins : ∀ b ∈ beats.tracks, file.Begins b.index (b.notes.map BeatNote.label)) :
    gridded.tracks.map BeatTrack.index = beats.tracks.map BeatTrack.index ∧
      ∀ g ∈ gridded.tracks, file.Begins g.index (g.notes.map BeatNote.label) := by
  have hrel := BeatScore.onGrid_eq_ok h
  refine ⟨map_eq_of_forall₂ hrel fun _ _ h => h.1.index_eq, ?_⟩
  intro g hg
  obtain ⟨b, hb, hkeeps, _⟩ := exists_of_forall₂_right hrel hg
  exact (hbegins b hb).of_keeps hkeeps

/-- An import loses no note, has none twice, and changes nothing of a note but its times. -/
theorem Score.import_conserves {format : Nat} {file : File} {score : Score} {filename : String}
    {options : ImportOptions} {beats gridded : BeatScore} {notices : List Notice}
    {reports : List TrackReport} (hscore : Score.ofFile format file = .ok score)
    (hbeats : score.inBeats filename options = .ok (beats, notices, reports))
    (hgrid : beats.onGrid options = .ok gridded) :
    Conserved file options score beats gridded (gridded.withSounds reports).1
      (gridded.withSounds reports).2.2 := by
  obtain ⟨⟨hbeatsIndices, hbeatsBegins⟩, hreportsIndices, hreportsCount⟩ :=
    Score.inBeats_begins hscore hbeats
  obtain ⟨hkept, hgriddedBegins⟩ := BeatScore.onGrid_begins hgrid hbeatsBegins
  have hgriddedIndices := hkept.trans hbeatsIndices
  have hsoundsBegins : ∀ s ∈ (gridded.withSounds reports).1,
      file.Begins s.track.index (s.track.notes.map BeatNote.label) := by
    intro s hs
    obtain ⟨g, hg, rfl⟩ := List.mem_map.mp hs
    exact hgriddedBegins g hg
  exact {
    score_indices := by
      rw [Score.ofFile_tracks hscore, numberedTracks_eq, List.map_map]
      exact List.map_id _
    beats_indices := hbeatsIndices
    gridded_indices := hgriddedIndices
    sounds_indices := (gridded.map_index_withSounds reports).trans hgriddedIndices
    reports_indices := (gridded.map_index_reports reports).trans hreportsIndices
    score_notes := Score.ofFile_begins hscore
    beats_notes := hbeatsBegins
    gridded_notes := hgriddedBegins
    sounds_notes := hsoundsBegins
    reports_count := by
      intro r hr
      obtain ⟨report, hreport, rfl⟩ := List.mem_map.mp hr
      exact TrackReport.update_counts (hreportsCount report hreport) hsoundsBegins
    comments_count := by
      intro s hs
      have hcounts := (hsoundsBegins s hs).counts
      rw [List.length_map] at hcounts
      exact ⟨_, hcounts, rfl⟩
    comments_shown := fun _ _ hcode => BeatScore.program_shows hcode }

/-- A note pressed again before it is released. -/
def pressedTwice : List Event := [
  ⟨0, .trackName "Lead"⟩, ⟨0, .noteOn 0 60 100⟩, ⟨240, .noteOn 0 60 64⟩, ⟨240, .noteOff 0 60⟩,
  ⟨240, .noteOff 0 60⟩]

/-- Two notes of the pitch pressed, with the times given. -/
def twoNotes (start₁ duration₁ start₂ duration₂ : Binary64) : List BeatNote := [
  ⟨60, velocityShare 100, start₁, duration₁, some 0, none⟩,
  ⟨60, velocityShare 64, start₂, duration₂, some 0, none⟩]

def leadTrack : TickTrack where
  index := 0
  name := "Lead"
  notes := [
    ⟨60, velocityShare 100, 0, 480, some 0, none⟩,
    ⟨60, velocityShare 64, 240, 480, some 0, none⟩]

def leadScore : Score := ⟨0, 480, [leadTrack], [], [], 0⟩

theorem ofFile_pressedTwice : Score.ofFile 0 ⟨480, [pressedTwice]⟩ = .ok leadScore := by
  have hpaired : (pairing pressedTwice).notes = leadTrack.notes := by decide +kernel
  have hnotes : (TickTrack.ofEvents 0 pressedTwice).notes = leadTrack.notes := by
    rw [TickTrack.ofEvents, hpaired]
    exact List.mergeSort_of_pairwise (by decide)
  have hname : (TickTrack.ofEvents 0 pressedTwice).name = "Lead" := by decide +kernel
  have hignored : (TickTrack.ofEvents 0 pressedTwice).ignored = 0 := by decide +kernel
  have htrack : TickTrack.ofEvents 0 pressedTwice = leadTrack := by
    have heta : ∀ t : TickTrack, t.index = 0 → t.name = "Lead" → t.notes = leadTrack.notes →
        t.ignored = 0 → t = leadTrack := by
      rintro ⟨index, name, notes, ignored⟩ rfl rfl rfl rfl
      rfl
    exact heta _ rfl hname hnotes hignored
  have hmessages : tempoEvents ([pressedTwice].flatMap (timed 0)) = .ok [] := rfl
  have hsig : signatureEvents ([pressedTwice].flatMap (timed 0)) = [] := rfl
  simp only [Score.ofFile, numberedTracks, htrack, hmessages, hsig]
  simp [leadScore, leadTrack, bind, Except.bind, pure, Except.pure]

def leadBeats : BeatTrack := ⟨0, "Lead", .melodic, some 0, none, twoNotes 0 1 1 1⟩

theorem sortNotes_of_sorted {notes : List BeatNote} (h : ∀ n ∈ notes, n.start.isNan = false)
    (hs : notes.Pairwise fun a b => b.precedes a = false) : sortNotes notes = notes := by
  rw [sortNotes_eq_mergeSort h]
  exact List.mergeSort_of_pairwise (hs.imp fun hba => by rw [hba]; rfl)

theorem leadTrack_inBeats : leadTrack.inBeats 480 0.0625 = .ok (leadBeats, 1) := by
  have hnotes : leadTrack.notes.mapM (·.inBeats 480 0.0625) = .ok (twoNotes 0 1 0.5 1) := by
    decide +kernel
  have hsorted : sortNotes (twoNotes 0 1 0.5 1) = twoNotes 0 1 0.5 1 :=
    sortNotes_of_sorted (by decide +kernel) (by decide +kernel)
  have hrepaired : repairFrom 0.0625 [] (twoNotes 0 1 0.5 1) = (twoNotes 0 1 1 1, 1) := by
    decide +kernel
  refine bind_eq_ok.mpr ⟨_, hnotes, ?_⟩
  rw [repairOverlaps, hsorted, hrepaired]
  rfl

theorem leadBeats_onGrid : leadBeats.onGrid 0.0625 = .ok leadBeats := by
  have hnotes : leadBeats.notes.mapM (·.onGrid 0.0625) = .ok leadBeats.notes := by
    decide +kernel
  have hsorted : sortNotes leadBeats.notes = leadBeats.notes :=
    sortNotes_of_sorted (by decide +kernel) (by decide +kernel)
  refine bind_eq_ok.mpr ⟨_, bind_eq_ok.mpr ⟨_, hnotes, rfl⟩, ?_⟩
  rw [hsorted]
  rfl

theorem leadScore_inBeats : ∃ beats notices reports,
    leadScore.inBeats "lead.mid" {} = .ok (beats, notices, reports) ∧
      ∃ gridded, beats.onGrid {} = .ok gridded := by
  have hstep : gridStep ({} : ImportOptions).division = .ok 0.0625 := by decide +kernel
  have hmeter : leadScore.beatsPerBar = .ok (.real 4) := by decide +kernel
  have hbars : barCount (totalBeats [leadBeats]) (.real 4) = .ok 1 := by decide +kernel
  have hgather : leadScore.gather {} 0.0625 =
      .ok ⟨[leadBeats], [Notice.overlapsRepaired 1], [leadBeats.report]⟩ :=
    bind_eq_ok.mpr ⟨_, bind_eq_ok.mpr ⟨_, leadTrack_inBeats, rfl⟩, rfl⟩
  refine ⟨_, _, _, bind_eq_ok.mpr ⟨_, rfl, bind_eq_ok.mpr ⟨_, rfl, bind_eq_ok.mpr ⟨_, hmeter,
    bind_eq_ok.mpr ⟨_, hstep, bind_eq_ok.mpr ⟨_, hgather, bind_eq_ok.mpr ⟨_, rfl,
      bind_eq_ok.mpr ⟨_, hbars, rfl⟩⟩⟩⟩⟩⟩⟩, ?_⟩
  refine ⟨_, bind_eq_ok.mpr ⟨_, hstep, bind_eq_ok.mpr ⟨[leadBeats], ?_,
    bind_eq_ok.mpr ⟨_, hbars, rfl⟩⟩⟩⟩
  exact bind_eq_ok.mpr ⟨_, leadBeats_onGrid, rfl⟩

theorem pressedTwice_conserved : ∃ beats gridded notices reports,
    Score.ofFile 0 ⟨480, [pressedTwice]⟩ = .ok leadScore ∧
    leadScore.inBeats "lead.mid" {} = .ok (beats, notices, reports) ∧
    beats.onGrid {} = .ok gridded ∧
    Conserved ⟨480, [pressedTwice]⟩ {} leadScore beats gridded (gridded.withSounds reports).1
      (gridded.withSounds reports).2.2 := by
  obtain ⟨beats, notices, reports, hbeats, gridded, hgrid⟩ := leadScore_inBeats
  exact ⟨beats, gridded, notices, reports, ofFile_pressedTwice, hbeats, hgrid,
    Score.import_conserves ofFile_pressedTwice hbeats hgrid⟩

end Midi
end PatternLoom
