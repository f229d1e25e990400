import Mathlib
import PatternLoom.Midi.Import
import PatternLoom.Proofs.Decimal.Rounded
import PatternLoom.Proofs.Midi.BeatsPerMinute
import PatternLoom.Proofs.Program.Heading
import PatternLoom.Proofs.Tempo.Parted

/-! The tempo of imported programs. The statement stands behind the comments, which hold a label of
the file and one of each track, so it is the tempo that is read and set just if no label is a
directive itself. -/

namespace PatternLoom
namespace Midi

section Comments

open Tempo

/-- The lines in front of the tempo statement. -/
def BeatScore.comments (score : BeatScore) (filename : String) : List String :=
  ["// MIDI import: " ++ fileLabel filename,
    "// Tempo: " ++ Decimal.compact score.bpm ++ " BPM | Time: " ++ score.meterText ++
      " | Bars: " ++ toString score.bars] ++
    (score.tracks.map BeatTrack.withSound).map SoundTrack.comment

/-- The text from outside that stands in the comments. -/
def BeatScore.labels (score : BeatScore) (filename : String) : List String :=
  fileLabel filename :: score.tracks.map fun t => trackLabel t.name

/-- A program of comments, a tempo statement and a stack. -/
def stackProgram (comments : List String) (tempo : String) (members : List String) : String :=
  "\n".intercalate (comments ++ [tempo]) ++ "\nstack(\n" ++
    ",\n".intercalate (members.map ("  " ++ ·)) ++ "\n)"

theorem intercalate_concat {α : Type} (mark : List α) (texts : List (List α)) (text : List α) :
    mark.intercalate (texts ++ [text]) = texts.flatMap (· ++ mark) ++ text := by
  induction texts with
  | nil => exact List.intercalate_singleton
  | cons first texts ih =>
    obtain ⟨next, rest, hrest⟩ := List.exists_cons_of_ne_nil
      (List.append_ne_nil_of_right_ne_nil texts (List.cons_ne_nil text []))
    rw [List.cons_append, hrest, List.intercalate_cons_cons, ← hrest, ih, List.flatMap_cons]
    simp only [List.append_assoc]

def commentText (comments : List String) : List Char :=
  (comments.map String.toList).flatMap (· ++ ['\n'])

def stackText (members : List String) : List Char :=
  ("\nstack(\n" ++ ",\n".intercalate (members.map ("  " ++ ·)) ++ "\n)").toList

theorem toList_stackProgram (comments : List String) (tempo : String) (members : List String) :
    (stackProgram comments tempo members).toList =
      commentText comments ++ (tempo.toList ++ stackText members) := by
  have hlines : ("\n".intercalate (comments ++ [tempo])).toList =
      commentText comments ++ tempo.toList := by
    rw [String.toList_intercalate, List.map_append, List.map_singleton]
    exact intercalate_concat _ _ _
  unfold stackText
  simp only [stackProgram, String.toList_append, hlines, List.append_assoc]

theorem sound_mem (t : BeatTrack) : t.withSound.sound ∈ drumSound :: fallbackSound :: families := by
  unfold BeatTrack.withSound BeatTrack.sound
  cases t.role with
  | drum => exact List.mem_cons_self
  | melodic =>
    refine List.mem_cons_of_mem _ ?_
    dsimp only
    unfold programSound
    split
    · rename_i sound hfamily
      unfold familySound at hfamily
      split at hfamily
      · split at hfamily
        · cases hfamily
        · exact List.mem_cons_of_mem _ (List.mem_of_getElem? hfamily)
      · cases hfamily
    · exact List.mem_cons_self

theorem untimed_instrument (t : BeatTrack) :
    Tempo.Untimed t.withSound.sound.instrument.toList := by
  have hsounds : ∀ sound ∈ drumSound :: fallbackSound :: families,
      Tempo.Untimed sound.instrument.toList := by
    decide +kernel
  exact hsounds _ (sound_mem t)

theorem foreign_toString (n : Nat) : ∀ c ∈ (toString n).toList, Foreign c := by
  intro c hc
  rw [toList_toString] at hc
  exact foreign_of_isAsciiDigit (Decimal.isAsciiDigit_of_mem_digits hc)

theorem callless_trackComment (t : BeatTrack) : Callless cpsWord t.withSound.comment.toList ↔
    Callless cpsWord (trackLabel t.name).toList := by
  have hfront : ∀ c ∈ "// Track ".toList ++ ((toString (t.index + 1)).toList ++ ": ".toList),
      sameLetter 's' c = false := by
    have hopen : ∀ c ∈ "// Track ".toList, sameLetter 's' c = false := by simp; decide
    have hclose : ∀ c ∈ ": ".toList, sameLetter 's' c = false := by simp; decide
    simp only [List.forall_mem_append]
    exact ⟨hopen, fun c hc => foreign_toString _ c hc 's' (by decide), hclose⟩
  have hback : Tempo.Untimed ("- ".toList ++ (t.withSound.sound.instrument.toList ++ (" (".toList ++
      ((toString t.notes.length).toList ++ " notes)".toList)))) := by
    have hdash : ∀ c ∈ "- ".toList, Foreign c := by simp; decide
    have hcount : Sealed " (".toList := by decide
    have hnotes : Sealed " notes)".toList := by decide
    have hnumber := sealed_of_foreign (foreign_toString t.notes.length)
    have hcounted := hcount.append (hnumber.append hnotes)
    exact .foreign_append hdash ((untimed_instrument t).append hcounted)
  have htext : t.withSound.comment.toList =
      ("// Track ".toList ++ ((toString (t.index + 1)).toList ++ ": ".toList)) ++
        ((trackLabel t.name).toList ++ [' '] ++ ("- ".toList ++
          (t.withSound.sound.instrument.toList ++ (" (".toList ++
            ((toString t.notes.length).toList ++ " notes)".toList))))) := by
    rw [SoundTrack.comment, SoundTrack.title]
    simp [BeatTrack.withSound]
  rw [htext, callless_append_of_not_initial rfl hfront, callless_append (by rintro c ⟨⟩; decide),
    callless_concat (by decide), and_iff_left (hback.callless (by simp))]

theorem callless_tempoComment (score : BeatScore) : Callless cpsWord ("// Tempo: " ++
    Decimal.compact score.bpm ++ " BPM | Time: " ++ score.meterText ++ " | Bars: " ++
      toString score.bars).toList := by
  have hopen : Tempo.Untimed "// Tempo: ".toList := by decide
  have hbeats : Sealed " BPM | Time: ".toList := by decide
  have hbars : Sealed " | Bars: ".toList := by decide
  have hmeter : Sealed score.meterText.toList := by
    have hslash : Sealed "/".toList := by decide
    rw [BeatScore.meterText, String.toList_append, String.toList_append]
    exact ((sealed_number score.numerator).append hslash).append (sealed_number score.denominator)
  have hbpm := sealed_of_foreign (isNumeric_compact score.bpm).foreign
  have huntimed := ((((hopen.append hbpm).append hbeats).append hmeter).append hbars).append
    (sealed_number score.bars)
  simp only [← String.toList_append] at huntimed
  exact huntimed.callless (by simp)

theorem callless_comments (score : BeatScore) (filename : String) :
    Callless cpsWord (commentText (score.comments filename)) ↔
      ∀ label ∈ score.labels filename, Callless cpsWord label.toList := by
  have hlines : ∀ line ∈ (score.comments filename).map String.toList, line.head? = some '/' := by
    simp [BeatScore.comments, SoundTrack.comment, SoundTrack.title]
  have hfile : Callless cpsWord ("// MIDI import: " ++ fileLabel filename).toList ↔
      Callless cpsWord (fileLabel filename).toList := by
    rw [String.toList_append]
    exact callless_append_of_not_initial rfl (by simp; decide)
  rw [commentText, callless_lines hlines]
  simp only [BeatScore.comments, BeatScore.labels, List.map_cons, List.map_map,
    List.cons_append, List.nil_append, List.forall_mem_cons, List.forall_mem_map,
    hfile, callless_tempoComment, true_and, Function.comp_apply, callless_trackComment]

end Comments

section Imports

open Tempo

variable {data : List UInt8} {filename : String} {options : ImportOptions} {result : Import}

/-- An import with the score on the grid that it is made from and the members of its stack. -/
structure Stages (data : List UInt8) (filename : String) (options : ImportOptions)
    (result : Import) (gridded : BeatScore) (members : List String) : Prop where
  read : ∃ score beats notices reports, Score.read data = .ok score ∧
    score.inBeats filename options = .ok (beats, notices, reports) ∧
    beats.onGrid options = .ok gridded
  members_eq : List.Forall₂ (fun t text =>
    t.withSound.line gridded.bars gridded.beatsPerBar options = .ok text) gridded.tracks members
  bpm_eq : result.bpm = gridded.bpm
  code_eq : result.code = stackProgram (gridded.comments filename) (tempoHeader result.bpm) members

/-- The tempo of an import is read from the statement behind its comments, and set in its place. -/
structure SetsTempo (result : Import) (comments members : List String) : Prop where
  read : baseCycles result.code = Decimal.roundTo 3 (result.bpm / 120) ∧
    Numeral (cyclesText result.bpm).toList (baseCycles result.code)
  set : ∀ cycles : Binary64, cycles.isFinite → 0 ≤ cycles → setCycles result.code cycles =
    stackProgram comments (String.ofList (statement cycles)) members

theorem refuseUnusable_eq_ok {α : Type} {r : Result α} {a : α} :
    refuseUnusable r = .ok a ↔ r = .ok a := by
  cases r with
  | ok b => rfl
  | error e => exact iff_of_false nofun nofun

theorem exists_stages (h : importBytes data filename options = .ok result) :
    ∃ gridded members, Stages data filename options result gridded members := by
  simp only [importBytes, refuseUnusable_eq_ok, bind_eq_ok, Score.convert] at h
  obtain ⟨score, hscore, ⟨beats, notices, reports⟩, hbeats, hconvert⟩ := h
  simp only [BeatScore.convert, bind_eq_ok, pure_eq_ok] at hconvert
  obtain ⟨gridded, hgridded, code, hcode, rfl⟩ := hconvert
  simp only [BeatScore.program, bind_eq_ok, pure_eq_ok, mapM_eq_ok] at hcode
  obtain ⟨members, hmembers, rfl⟩ := hcode
  rw [BeatScore.withSounds, List.forall₂_map_left_iff] at hmembers
  exact ⟨gridded, members, ⟨score, beats, notices, reports, hscore, hbeats, hgridded⟩, hmembers,
    rfl, rfl⟩

theorem Stages.bpm_pos {gridded : BeatScore} {members : List String}
    (h : Stages data filename options result gridded members) :
    result.bpm.isFinite ∧ ¬ result.bpm ≤ 0 := by
  obtain ⟨score, beats, notices, reports, hscore, hbeats, hgridded⟩ := h.read
  have hbeats_bpm : beats.bpm = Decimal.roundTo 3 score.bpm := by
    simp only [Score.inBeats, bind_eq_ok, pure_eq_ok] at hbeats
    obtain ⟨_, _, _, _, _, _, _, _, _, _, _, _, _, _, he⟩ := hbeats
    rw [← (Prod.mk.inj he).1]
  have hgridded_bpm : gridded.bpm = beats.bpm := by
    simp only [BeatScore.onGrid, bind_eq_ok, pure_eq_ok] at hgridded
    obtain ⟨_, _, _, _, _, _, rfl⟩ := hgridded
    rfl
  obtain ⟨hfinite, hone⟩ := Score.one_le_bpm hscore
  rw [h.bpm_eq, hgridded_bpm, hbeats_bpm]
  exact Decimal.pos_roundTo 3 hfinite hone

theorem Stages.setsTempo_iff {gridded : BeatScore} {members : List String}
    (h : Stages data filename options result gridded members) :
    SetsTempo result (gridded.comments filename) members ↔
      Callless cpsWord (commentText (gridded.comments filename)) := by
  obtain ⟨hfinite, hpos⟩ := h.bpm_pos
  obtain ⟨hcycles, hunsigned⟩ := cycles_unsigned hfinite hpos
  have hsign := hunsigned.not_mem_fixed hcycles
  have hcode := congrArg String.toList h.code_eq
  rw [toList_stackProgram, toList_tempoHeader] at hcode
  constructor
  · intro hsets
    -- What is set at two tempos shows where the statement stands.
    have htempos : ∀ cycles ∈ [(1 : Binary64), 2], cycles.isFinite ∧ 0 ≤ cycles := by
      decide +kernel
    have hframe : ∀ cycles ∈ [(1 : Binary64), 2], charsWithCycles result.code.toList cycles =
        commentText (gridded.comments filename) ++ (statement cycles ++ stackText members) := by
      intro cycles hmem
      obtain ⟨hnumber, hnonneg⟩ := htempos cycles hmem
      have hset := congrArg String.toList (hsets.set cycles hnumber hnonneg)
      rwa [setCycles, String.toList_ofList, toList_stackProgram, String.toList_ofList] at hset
    exact callless_of_frame hframe
  · intro hcallless
    have hread : baseCycles result.code = Decimal.roundTo 3 (result.bpm / 120) := by
      rw [baseCycles, hcode, findCall_statement hcycles hsign hcallless]
    refine ⟨⟨hread, hread ▸ numeral_cyclesText hfinite hpos⟩, fun cycles _ _ => ?_⟩
    rw [setCycles, hcode, charsWithCycles_behind hcycles hsign hcallless, ← String.toList_inj,
      String.toList_ofList, toList_stackProgram, String.toList_ofList]

/-- The tempo of an import is that of its statement just if no label in the comments before it
has a tempo directive. -/
theorem importBytes_setsTempo (h : importBytes data filename options = .ok result) :
    ∃ gridded members, Stages data filename options result gridded members ∧
      (SetsTempo result (gridded.comments filename) members ↔
        ∀ label ∈ gridded.labels filename, ¬ Contains cpsWord label.toList) := by
  obtain ⟨gridded, members, hstages⟩ := exists_stages h
  refine ⟨gridded, members, hstages, ?_⟩
  simp only [contains_iff, not_not, ← callless_comments]
  exact hstages.setsTempo_iff

/-- A lead of one note, in a file that sets no tempo. -/
def leadBytes : List UInt8 := [
  0x4d, 0x54, 0x68, 0x64, 0, 0, 0, 6, 0, 0, 0, 1, 0x01, 0xe0,
  0x4d, 0x54, 0x72, 0x6b, 0, 0, 0, 24, 0, 0xff, 3, 4, 0x4c, 0x65, 0x61, 0x64, 0, 0xc0, 0,
  0, 0x90, 60, 100, 0x83, 0x60, 0x80, 60, 0, 0, 0xff, 0x2f, 0]

theorem leadBytes_setsTempo : ∃ result, importBytes leadBytes "lead.mid" {} = .ok result ∧
    ∃ gridded members, Stages leadBytes "lead.mid" {} result gridded members ∧
      (SetsTempo result (gridded.comments "lead.mid") members ↔
        ∀ label ∈ gridded.labels "lead.mid", ¬ Contains cpsWord label.toList) := by
  obtain ⟨result, hresult⟩ :=
    eq_ok_of_isOk (x := importBytes leadBytes "lead.mid" {}) (by decide +kernel)
  exact ⟨result, hresult, importBytes_setsTempo hresult⟩

/-- The lines of the program of the lead, with a label for the file. -/
def leadLines (label : String) : List String := [
  "// MIDI import: " ++ label, "// Tempo: 120 BPM | Time: 4/4 | Bars: 1",
  "// Track 1: Lead - Piano (1 notes)", "setcps(1.000);", "stack(",
  "  note(\"c4 ~!63\").slow(1).s(\"triangle\").gain(0.494)", ")"]

/-- The label of the file is read as the tempo, and written over when a tempo is set. -/
theorem setcpsLabel_read_and_set : ∃ result,
    importBytes leadBytes "setcps(9).mid" {} = .ok result ∧ result.bpm = 120 ∧
    result.code = "\n".intercalate (leadLines "setcps(9)") ∧
    baseCycles result.code ≠ Decimal.roundTo 3 (result.bpm / 120) ∧
    setCycles result.code 2 = "\n".intercalate (leadLines "setcps(2.000);") := by
  have himport : (importBytes leadBytes "setcps(9).mid" {}).map (fun r => (r.bpm, r.code)) =
      .ok (120, "\n".intercalate (leadLines "setcps(9)")) := by
    decide +kernel
  cases hresult : importBytes leadBytes "setcps(9).mid" {} with
  | error e =>
    rw [hresult] at himport
    cases himport
  | ok result =>
    rw [hresult] at himport
    obtain ⟨hbpm, hcode⟩ := Prod.mk.inj (Except.ok.inj himport)
    refine ⟨result, rfl, hbpm, hcode, ?_, ?_⟩
    · rw [hcode, hbpm]
      decide +kernel
    · rw [hcode]
      decide +kernel

-- Without a bracket behind it the word sets nothing.
example : baseCycles ("\n".intercalate (leadLines "setcps 9")) = 1 := by decide +kernel

end Imports
end Midi
end PatternLoom
