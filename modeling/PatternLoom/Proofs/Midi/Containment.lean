import PatternLoom.Proofs.Midi.Decoding
import PatternLoom.Proofs.Midi.Playing

/-! Which failures an import contains. Everything that can go wrong with a file is refused, but
for key signatures, tempos of zero and times beyond the range of numbers: of these the failure
escapes. -/

namespace PatternLoom
namespace Midi

/-- An import that succeeds or is refused with one of the three codes. -/
def Contained (r : Result Import) : Prop :=
  (∃ imported, r = .ok imported) ∨ ∃ reason, r = .error (.refusedImport reason) ∧
    reason.code ∈ ["invalid_midi", "unsupported_midi_type", "note_limit_exceeded"]

theorem code_mem (reason : ImportRefusal) :
    reason.code ∈ ["invalid_midi", "unsupported_midi_type", "note_limit_exceeded"] := by
  cases reason <;> simp [ImportRefusal.code]

theorem contained_refuseUnusable {r : Result Import} :
    Contained (refuseUnusable r) ↔ ¬ Escapes r := by
  cases r with
  | ok imported => exact iff_of_true (.inl ⟨imported, rfl⟩) (not_escapes_ok imported)
  | error e =>
    rw [escapes_error, Escaping, refuseUnusable]
    cases hu : unusable e with
    | true => exact iff_of_true (.inr ⟨_, rfl, code_mem _⟩) (by simp)
    | false =>
      simp only [Contained, Bool.false_eq_true, if_false]
      constructor
      · rintro (⟨_, he⟩ | ⟨reason, he, _⟩) ⟨_, hne⟩
        · cases he
        · exact hne reason (Except.error.inj he)
      · intro h
        simp only [true_and, not_forall, not_not] at h
        obtain ⟨reason, rfl⟩ := h
        exact .inr ⟨reason, rfl, code_mem reason⟩

/-- The times of a score in beats stay in the range of numbers on their way to the grid and
into the cells. -/
structure BeatScore.InRange (beats : BeatScore) (options : ImportOptions) (step : Binary64) :
    Prop where
  steps : ∀ t ∈ beats.tracks, ∀ n ∈ t.notes, CountsIn n.start step ∧ CountsIn n.stop step
  length : ∀ tracks, beats.tracks.mapM (·.onGrid step) = .ok tracks →
    (Midi.totalBeats tracks).isInfinite = false
  playable : ∀ gridded, beats.onGrid options = .ok gridded → gridded.Playable options step

/-- The times of a score stay in the range of numbers on their way into a program. -/
structure Score.InRange (score : Score) (filename : String) (options : ImportOptions)
    (step : Binary64) : Prop where
  ticks : ∀ t ∈ score.kept options, ∀ n ∈ t.notes, n.InRange score.ticksPerBeat
  length : ∀ gathered, score.gather options step = .ok gathered →
    (totalBeats gathered.tracks).isInfinite = false
  beats : ∀ beats notices reports,
    score.inBeats filename options = .ok (beats, notices, reports) → beats.InRange options step

section Converting

variable {step : Binary64} {options : ImportOptions} {filename : String}

theorem BeatScore.onGrid_parts {beats gridded : BeatScore} (h : beats.onGrid options = .ok gridded) :
    (∀ t ∈ gridded.tracks, ∀ n ∈ t.notes, n.start.isNan = false) ∧
      (beats.tracks ≠ [] → gridded.tracks ≠ []) := by
  have hrel := BeatScore.onGrid_eq_ok h
  constructor
  · intro g hg
    obtain ⟨_, _, _, hstarts⟩ := exists_of_forall₂_right hrel hg
    exact hstarts
  · intro hne hempty
    rw [hempty, List.forall₂_nil_right_iff] at hrel
    exact hne hrel

theorem not_escapes_beatScore {beats : BeatScore} {notices : List Notice}
    {reports : List TrackReport} (hstep : gridStep options.division = .ok step)
    (hs : step.isFinite) (ht : ∀ t ∈ beats.tracks, ∀ n ∈ t.notes, n.Timed)
    (hl : IsLength beats.beatsPerBar) (hne : beats.tracks ≠ []) :
    ¬ Escapes (beats.convert notices reports filename options) ↔ beats.InRange options step := by
  have hprogram : ∀ gridded, beats.onGrid options = .ok gridded →
      (¬ Escapes (gridded.program (gridded.tracks.map BeatTrack.withSound) filename options) ↔
        gridded.Playable options step) := by
    intro gridded hgrid
    obtain ⟨hstarts, hsome⟩ := BeatScore.onGrid_parts hgrid
    exact not_escapes_program hstep hs hstarts (hsome hne)
  rw [BeatScore.convert, not_escapes_bind, not_escapes_onGrid hstep hs ht hl]
  constructor
  · rintro ⟨⟨hsteps, hlength⟩, hrest⟩
    refine ⟨hsteps, hlength, fun gridded hgrid => ?_⟩
    exact (hprogram gridded hgrid).mp (not_escapes_bind.mp (hrest gridded hgrid)).1
  · rintro ⟨hsteps, hlength, hplayable⟩
    refine ⟨⟨hsteps, hlength⟩, fun gridded hgrid => ?_⟩
    refine not_escapes_bind.mpr ⟨(hprogram gridded hgrid).mpr (hplayable gridded hgrid), ?_⟩
    exact fun _ _ => not_escapes_ok _

theorem Score.inBeats_admitted {score : Score}
    {beats : BeatScore × List Notice × List TrackReport}
    (h : score.inBeats filename options = .ok beats) : score.Admitted options := by
  by_contra hnot
  obtain ⟨reason, hrefused⟩ := Score.inBeats_refused hnot filename
  rw [hrefused] at h
  cases h

theorem not_escapes_convert {score : Score} (hm : score.Metered)
    (hstep : gridStep options.division = .ok step) :
    ¬ Escapes (score.convert filename options) ↔
      (score.Admitted options → score.InRange filename options step) := by
  obtain ⟨step', hstep', hs⟩ := gridStep_eq_ok options.division
  obtain rfl := Except.ok.inj (hstep.symm.trans hstep')
  have hbeats : ∀ beats notices reports,
      score.inBeats filename options = .ok (beats, notices, reports) →
      (¬ Escapes (beats.convert notices reports filename options) ↔
        beats.InRange options step) := by
    intro beats notices reports h
    obtain ⟨htimed, hlength, hne⟩ := Score.inBeats_timed hm h
    exact not_escapes_beatScore hstep hs htimed hlength hne
  rw [Score.convert, not_escapes_bind, not_escapes_inBeats hm hstep]
  constructor
  · rintro ⟨hin, hrest⟩ hadmitted
    obtain ⟨hticks, hlength⟩ := hin hadmitted
    refine ⟨hticks, hlength, fun beats notices reports h => ?_⟩
    exact (hbeats beats notices reports h).mp (hrest _ h)
  · intro hrange
    refine ⟨fun hadmitted => ⟨(hrange hadmitted).ticks, (hrange hadmitted).length⟩, ?_⟩
    rintro ⟨beats, notices, reports⟩ h
    exact (hbeats beats notices reports h).mpr
      ((hrange (Score.inBeats_admitted h)).beats beats notices reports h)

end Converting

section Reading

theorem not_escapes_formatNumber (data : List UInt8) : ¬ Escapes (formatNumber data) := by
  unfold formatNumber
  split
  · exact not_escapes_refused _
  · split
    · exact not_escapes_refused _
    · exact not_escapes_ok _

theorem not_escapes_decode (data : List UInt8) :
    ¬ Escapes (File.decode data) ↔ File.decode data ≠ .error .keySignature := by
  cases h : File.decode data with
  | ok file => exact iff_of_true (not_escapes_ok file) nofun
  | error e =>
    rw [escapes_error]
    rcases File.decode_error h with rfl | rfl
    · exact iff_of_true (fun hesc => hesc.2 _ rfl) nofun
    · exact iff_of_false (not_not_intro escaping_keySignature) (not_not_intro rfl)

theorem settles_beatsPerMinute {microseconds : Nat} (h : microseconds < 2 ^ 24) :
    Settles (beatsPerMinute microseconds) (microseconds ≠ 0) := by
  have hin : (microseconds : Int).natAbs * unitsPerOne < overflow :=
    (Nat.mul_le_mul_right _ (show (microseconds : Int).natAbs ≤ 2 ^ 110 by
      have hpow : 2 ^ 24 ≤ 2 ^ 110 := by decide
      omega)).trans_lt two_pow_mul_unitsPerOne_lt
  obtain ⟨x, hx⟩ := (settles_ofInt _).exists_ok hin
  have hzero : x.isZero = false ↔ microseconds ≠ 0 := by
    rw [← Bool.not_eq_true, Binary64.isZero_of_ofInt hx, Int.natCast_eq_zero]
  rw [beatsPerMinute, hx]
  exact ((settles_quotient _ x).followed fun _ _ => ⟨_, rfl⟩).congr hzero

theorem settles_tempoEvents {messages : List (Nat × Message)}
    (h : ∀ m ∈ messages.map Prod.snd, m.Sane) :
    Settles (tempoEvents messages) (∀ m ∈ messages.map Prod.snd, m ≠ .tempo 0) := by
  induction messages with
  | nil => exact (Settles.ok _).congr (by simp)
  | cons p messages ih =>
    obtain ⟨tick, message⟩ := p
    rw [List.map_cons, List.forall_mem_cons] at h
    have hrest := ih h.2
    rw [List.map_cons, List.forall_mem_cons]
    cases message with
    | tempo microseconds =>
      have hfirst := (settles_beatsPerMinute h.1).congr
        (show microseconds ≠ 0 ↔ Message.tempo microseconds ≠ .tempo 0 by simp)
      exact hfirst.andThen fun _ _ => hrest.followed fun _ _ => ⟨_, rfl⟩
    | _ => exact hrest.congr (by simp)

theorem map_snd_timed (tick : Nat) (events : List Event) :
    (timed tick events).map Prod.snd = events.map Event.message := by
  induction events generalizing tick with
  | nil => rfl
  | cons e events ih => rw [timed, List.map_cons, List.map_cons, ih]

/-- A message of a file at any time is that of one of its events. -/
theorem forall_messages {file : File} {P : Message → Prop} :
    (∀ m ∈ (file.tracks.flatMap (timed 0)).map Prod.snd, P m) ↔
      ∀ events ∈ file.tracks, ∀ e ∈ events, P e.message := by
  rw [List.map_flatMap]
  simp only [map_snd_timed, List.mem_flatMap, List.mem_map]
  constructor
  · intro h events hevents e he
    exact h _ ⟨events, hevents, e, he, rfl⟩
  · rintro h _ ⟨events, hevents, e, he, rfl⟩
    exact h events hevents e he

theorem settles_ofFile {format : Nat} {file : File} (h : ∀ t ∈ file.tracks, SaneEvents t) :
    Settles (Score.ofFile format file)
      (∀ events ∈ file.tracks, ∀ e ∈ events, e.message ≠ .tempo 0) :=
  ((settles_tempoEvents (forall_messages.mpr h)).congr forall_messages).followed
    fun _ _ => ⟨_, rfl⟩

/-- A meter as files have it: a byte over a power of two. -/
def Score.Dyadic (score : Score) : Prop :=
  ∃ numerator power : Nat, numerator < 256 ∧ power < 256 ∧
    score.meter = ((numerator : Int), ((2 ^ power : Nat) : Int))

theorem Score.Dyadic.metered {score : Score} (h : score.Dyadic) : score.Metered := by
  obtain ⟨numerator, power, hn, -, hmeter⟩ := h
  rw [Metered, hmeter]
  exact ⟨hn, Int.natCast_ne_zero.mpr (Nat.two_pow_pos power).ne'⟩

theorem Score.ofFile_dyadic {format : Nat} {file : File} {score : Score}
    (h : ∀ t ∈ file.tracks, SaneEvents t) (hs : Score.ofFile format file = .ok score) :
    score.Dyadic := by
  have hall : ∀ p ∈ score.signatures, ∃ numerator power : Nat, numerator < 256 ∧ power < 256 ∧
      p.2 = ((numerator : Int), ((2 ^ power : Nat) : Int)) := by
    simp only [ofFile, bind_eq_ok, pure_eq_ok] at hs
    obtain ⟨_, _, rfl⟩ := hs
    intro p hp
    have hp' := (List.mergeSort_perm _ _).mem_iff.mp hp
    obtain ⟨⟨tick, message⟩, hm, hsome⟩ := List.mem_filterMap.mp hp'
    have hsane := forall_messages.mpr h message (List.mem_map.mpr ⟨_, hm, rfl⟩)
    cases message with
    | timeSignature numerator denominator =>
      obtain rfl := Option.some.inj hsome
      obtain ⟨hn, power, hpower, rfl⟩ := hsane
      exact ⟨numerator, power, hn, hpower, rfl⟩
    | _ => cases hsome
  unfold Dyadic meter
  cases hhead : score.signatures.head? with
  | none => exact ⟨4, 2, by decide, by decide, rfl⟩
  | some p => exact hall p (List.mem_of_mem_head? hhead)

theorem Score.ofFile_metered {format : Nat} {file : File} {score : Score}
    (h : ∀ t ∈ file.tracks, SaneEvents t) (hs : Score.ofFile format file = .ok score) :
    score.Metered :=
  (Score.ofFile_dyadic h hs).metered

/-- A file that is refused for its header alone, or can be decoded, with no tempo of zero and
with times in range unless it is refused for its ticks or the number of its notes. -/
def Importable (data : List UInt8) (filename : String) (options : ImportOptions) : Prop :=
  ∀ format, formatNumber data = .ok format → format ≠ 2 →
    File.decode data ≠ .error .keySignature ∧
    ∀ file, File.decode data = .ok file →
      (∀ events ∈ file.tracks, ∀ e ∈ events, e.message ≠ .tempo 0) ∧
      ∀ score, Score.ofFile format file = .ok score → score.Admitted options →
        ∀ step, gridStep options.division = .ok step → score.InRange filename options step

/-- A file that is refused for its header alone, or can be decoded to a score that has a property,
with no tempo of zero. -/
def ReadsAs (data : List UInt8) (P : Score → Prop) : Prop :=
  ∀ format, formatNumber data = .ok format → format ≠ 2 →
    File.decode data ≠ .error .keySignature ∧
    ∀ file, File.decode data = .ok file →
      (∀ events ∈ file.tracks, ∀ e ∈ events, e.message ≠ .tempo 0) ∧
      ∀ score, Score.ofFile format file = .ok score → P score

theorem not_escapes_read {data : List UInt8} {f : Score → Result Import} {P : Score → Prop}
    (hf : ∀ score : Score, score.Metered → (¬ Escapes (f score) ↔ P score)) :
    ¬ Escapes (Score.read data >>= f) ↔ ReadsAs data P := by
  have hscore : ∀ format file, File.decode data = .ok file →
      (¬ Escapes (Score.ofFile format file >>= f) ↔
        (∀ events ∈ file.tracks, ∀ e ∈ events, e.message ≠ .tempo 0) ∧
        ∀ score, Score.ofFile format file = .ok score → P score) := by
    intro format file hfile
    have hsane := File.decode_sane hfile
    rw [not_escapes_bind, (settles_ofFile hsane).not_escapes_iff]
    exact and_congr_right fun _ => forall₂_congr fun score hs =>
      hf score (Score.ofFile_metered hsane hs)
  have hread : (Score.read data >>= f) =
      formatNumber data >>= fun format => checkFormat format >>= fun _ =>
        File.decode data >>= fun file => Score.ofFile format file >>= f := by
    simp only [Score.read, bind_assoc]
  rw [hread, not_escapes_bind]
  refine (and_iff_right (not_escapes_formatNumber data)).trans ?_
  refine forall₂_congr fun format _ => ?_
  by_cases htwo : format = 2
  · have hrefused : checkFormat format = .error (.refusedImport .independentSequences) :=
      if_pos htwo
    rw [hrefused]
    exact iff_of_true (not_escapes_refused _) fun hne => absurd htwo hne
  · have hformat : checkFormat format = .ok () := if_neg htwo
    rw [not_escapes_bind_ok hformat, not_escapes_bind, not_escapes_decode,
      forall_prop_of_true htwo]
    exact and_congr_right fun _ => forall₂_congr fun file hfile => hscore format file hfile

/-- The times of a score are in range on every grid of the options, if it is admitted. -/
def Score.Converts (score : Score) (filename : String) (options : ImportOptions) : Prop :=
  score.Admitted options → ∀ step, gridStep options.division = .ok step →
    score.InRange filename options step

theorem not_escapes_convert_iff {score : Score} (hm : score.Metered) (filename : String)
    (options : ImportOptions) :
    ¬ Escapes (score.convert filename options) ↔ score.Converts filename options := by
  obtain ⟨step, hstep, _⟩ := gridStep_eq_ok options.division
  rw [not_escapes_convert hm hstep]
  refine forall_congr' fun _ => ?_
  constructor
  · intro h step' hstep'
    obtain rfl := Except.ok.inj (hstep.symm.trans hstep')
    exact h
  · exact fun h => h step hstep

/-- For the bytes of any file, an import succeeds or is refused just if there is no key
signature and no tempo that cannot be read and no time out of range. -/
theorem importBytes_contained (data : List UInt8) (filename : String) (options : ImportOptions) :
    Contained (importBytes data filename options) ↔ Importable data filename options := by
  rw [importBytes, contained_refuseUnusable]
  exact not_escapes_read fun score hm => not_escapes_convert_iff hm filename options

/-- A note under a tempo of zero. -/
def zeroTempo : List UInt8 := [
  0x4d, 0x54, 0x68, 0x64, 0, 0, 0, 6, 0, 0, 0, 1, 0x01, 0xe0,
  0x4d, 0x54, 0x72, 0x6b, 0, 0, 0, 19, 0, 0xff, 0x51, 3, 0, 0, 0,
  0, 0x90, 60, 100, 96, 0x80, 60, 0, 0, 0xff, 0x2f, 0]

theorem zeroTempo_not_contained : importBytes zeroTempo "zero.mid" {} = .error .divisionByZero ∧
    ¬ Contained (importBytes zeroTempo "zero.mid" {}) := by
  have hfails : importBytes zeroTempo "zero.mid" {} = .error .divisionByZero :=
    eq_error_of_failure? (by decide +kernel)
  refine ⟨hfails, ?_⟩
  rw [hfails]
  rintro (⟨_, h⟩ | ⟨_, h, _⟩)
  · cases h
  · cases h

end Reading

end Midi
end PatternLoom
