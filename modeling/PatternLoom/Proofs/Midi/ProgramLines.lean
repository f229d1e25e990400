import Mathlib
import PatternLoom.Proofs.Midi.Cells
import PatternLoom.Proofs.Midi.Containment
import PatternLoom.Proofs.Midi.TempoLine
import PatternLoom.Proofs.Text.Lines

/-! The lines of imported programs. Track names are brought to one line before they stand in a
comment, and everything else but the name of the file is written by the import itself, so the
program has the lines it is meant to have just if the name of the file keeps to one. -/

namespace PatternLoom
namespace Midi

section Labels

theorem mem_of_mem_trim {c : Char} {cs : List Char} (h : c ∈ trim cs) : c ∈ cs := by
  rw [trim, trimRight, List.mem_reverse] at h
  have hleft := List.mem_reverse.mp ((List.dropWhile_sublist _).mem h)
  exact (List.dropWhile_sublist _).mem hleft

theorem isLineBreak_collapseBlanks (afterBlank : Bool) (cs : List Char) :
    ∀ c ∈ collapseBlanks afterBlank cs, isLineBreak c = false := by
  induction cs generalizing afterBlank with
  | nil => simp [collapseBlanks]
  | cons c cs ih =>
    by_cases hblank : isBlank c
    · cases afterBlank with
      | true => simpa [collapseBlanks, hblank] using ih true
      | false =>
        rw [collapseBlanks, if_pos hblank]
        exact List.forall_mem_cons.mpr ⟨by decide, ih true⟩
    · rw [collapseBlanks, if_neg hblank]
      have hc := isLineBreak_eq_false (Bool.eq_false_iff.mpr hblank)
      exact List.forall_mem_cons.mpr ⟨hc, ih false⟩

/-- Whatever a track is called, its label keeps to one line. -/
theorem oneLine_trackLabel (name : String) : OneLine (trackLabel name) := by
  unfold trackLabel
  dsimp only
  split
  · decide
  · intro c hc
    rw [String.toList_ofList] at hc
    exact isLineBreak_collapseBlanks _ _ c (mem_of_mem_trim hc)

theorem oneLine_sound (t : BeatTrack) :
    OneLine t.withSound.sound.instrument ∧ OneLine t.withSound.sound.sample := by
  have hsounds : ∀ sound ∈ drumSound :: fallbackSound :: families,
      OneLine sound.instrument ∧ OneLine sound.sample := by
    decide +kernel
  exact hsounds _ (sound_mem t)

theorem oneLine_natToString (n : Nat) : OneLine (toString n) := oneLine_toString n

theorem oneLine_compact (x : Binary64) : OneLine (Decimal.compact x) := by
  intro c hc
  rcases (isNumeric_compact x).chars c hc with hdigit | rfl | rfl
  · exact isLineBreak_eq_false_of_isAsciiDigit hdigit
  · decide
  · decide

theorem oneLine_trackComment (t : BeatTrack) : OneLine t.withSound.comment := by
  have hopen : OneLine "// Track " ∧ OneLine ": " ∧ OneLine " - " ∧ OneLine " (" ∧
      OneLine " notes)" ∧ OneLine "// " ∧ OneLine "Track " := by decide
  simp only [SoundTrack.comment, SoundTrack.title, oneLine_append, hopen, oneLine_natToString,
    oneLine_trackLabel, oneLine_sound, and_self]

theorem oneLine_tempoComment (score : BeatScore) : OneLine ("// Tempo: " ++
    Decimal.compact score.bpm ++ " BPM | Time: " ++ score.meterText ++ " | Bars: " ++
      toString score.bars) := by
  have htexts : OneLine "// Tempo: " ∧ OneLine " BPM | Time: " ∧ OneLine " | Bars: " ∧
      OneLine "/" := by decide
  simp only [BeatScore.meterText, oneLine_append, htexts, oneLine_compact, oneLine_toString,
    and_self]

theorem oneLine_tempoHeader {bpm : Binary64} (hfinite : bpm.isFinite) (hpos : ¬ bpm ≤ 0) :
    OneLine (tempoHeader bpm) := by
  have hcycles : OneLine (cyclesText bpm) := by
    intro c hc
    rcases (numeral_cyclesText hfinite hpos).mem c hc with hdigit | rfl
    · exact isLineBreak_eq_false_of_isAsciiDigit hdigit
    · decide
  have htexts : OneLine "setcps(" ∧ OneLine ");" := by decide
  simp only [tempoHeader, oneLine_append, htexts, hcycles, and_self]

end Labels

section Tokens

theorem oneLine_noteName (pitch : Int) (sharps : Bool) : OneLine (noteName pitch sharps) := by
  have hnames : ∀ name ∈ "" :: sharpNames ++ flatNames, OneLine name := by decide +kernel
  have hmem : (if sharps then sharpNames else flatNames).getD (pitch % 12).toNat "" ∈
      "" :: sharpNames ++ flatNames := by
    rw [List.getD_eq_getElem?_getD]
    cases hget : (if sharps then sharpNames else flatNames)[(pitch % 12).toNat]? with
    | none => exact List.mem_cons_self
    | some name =>
      have hname := List.mem_of_getElem? hget
      cases sharps <;> simp at hname <;> simp [hname]
  exact (hnames _ hmem).append (oneLine_toString _)

theorem oneLine_drumSample (note : Int) : OneLine (drumSample note).1 := by
  have hsamples : ∀ sample ∈ drumTable.map Prod.snd, OneLine sample := by decide +kernel
  exact hsamples _ (drumSample_mem note)

theorem oneLine_of_mem_cellMembers {role : Role} {sharps : Bool} {pitches : List Int}
    {name : String} (h : name ∈ cellMembers role sharps pitches) : OneLine name := by
  cases role with
  | drum =>
    rw [cellMembers, mem_distinctSorted fun _ _ => decide_eq_true_iff] at h
    obtain ⟨p, _, rfl⟩ := List.mem_map.mp h
    exact oneLine_drumSample p
  | melodic =>
    obtain ⟨p, _, rfl⟩ := List.mem_map.mp h
    exact oneLine_noteName p sharps

theorem oneLine_cellText {members : List String} (h : ∀ name ∈ members, OneLine name) :
    OneLine (cellText members) := by
  unfold cellText
  split
  · decide
  · exact h _ (by simp)
  · have hbrackets : OneLine "[" ∧ OneLine "]" ∧ OneLine " " := by decide
    simp only [oneLine_append, hbrackets, oneLine_intercalate hbrackets.2.2 h, and_self]

theorem oneLine_of_mem_compress {cells : List String} (h : ∀ cell ∈ cells, OneLine cell)
    {token : String} (htoken : token ∈ compress cells) : OneLine token := by
  cases cells with
  | nil =>
    obtain rfl := List.mem_singleton.mp htoken
    decide
  | cons first cells =>
    obtain ⟨cell, hcell, length, rfl⟩ := mem_compressFrom htoken
    unfold runText
    split
    · have hbang : OneLine "!" := by decide
      exact ((h cell hcell).append hbang).append (oneLine_natToString length)
    · exact h cell hcell

theorem oneLine_of_mem_stepTokens {t : BeatTrack} {bars : Int} {beatsPerBar : Quantity}
    {options : ImportOptions} {tokens : List String}
    (h : stepTokens t bars beatsPerBar options = .ok tokens) :
    ∀ token ∈ tokens, OneLine token := by
  simp only [stepTokens, stepCells, bind_eq_ok, pure_eq_ok] at h
  obtain ⟨_, ⟨_, _, _, _, _, _, onsets, _, rfl⟩, rfl⟩ := h
  refine fun token htoken => oneLine_of_mem_compress (fun cell hcell => ?_) htoken
  obtain ⟨pitches, _, rfl⟩ := List.mem_map.mp hcell
  exact oneLine_cellText fun name hname => oneLine_of_mem_cellMembers hname

theorem oneLine_line {t : BeatTrack} {bars : Int} {beatsPerBar : Quantity}
    {options : ImportOptions} {line : String}
    (h : t.withSound.line bars beatsPerBar options = .ok line) : OneLine line := by
  simp only [SoundTrack.line, bind_eq_ok, pure_eq_ok] at h
  obtain ⟨tokens, htokens, gain, _, rfl⟩ := h
  have hspace : OneLine " " := by decide
  have hpattern := (oneLine_intercalate hspace (oneLine_of_mem_stepTokens htokens)).literal
  have hgain := oneLine_compact gain
  have hdrum : OneLine (literal drumSound.sample) := by decide +kernel
  have hsample := (oneLine_sound t).2.literal
  have htexts : OneLine "s(" ∧ OneLine "note(" ∧ OneLine ")" ∧ OneLine ".slow(" ∧
      OneLine ".gain(" ∧ OneLine ".bank(" ∧ OneLine ".s(" := by decide
  split
  · simp only [oneLine_append, htexts, hpattern, hgain, hdrum, oneLine_toString, and_self]
  · simp only [oneLine_append, htexts, hpattern, hgain, hsample, oneLine_toString, and_self]

end Tokens

section Programs

/-- The lines of the members of a stack: all but the last end with a comma. -/
def memberLines : List String → List (List Char)
  | [] => []
  | [member] => ["  ".toList ++ member.toList]
  | member :: next :: members =>
    ("  ".toList ++ member.toList ++ [',']) :: memberLines (next :: members)

theorem length_memberLines (members : List String) :
    (memberLines members).length = members.length := by
  fun_induction memberLines members with
  | case1 => rfl
  | case2 => rfl
  | case3 member next members ih => rw [List.length_cons, ih, ← List.length_cons]

theorem memberLines_indented (members : List String) :
    ∀ line ∈ memberLines members, "  ".toList <+: line := by
  fun_induction memberLines members with
  | case1 => simp
  | case2 member => simp
  | case3 member next members ih =>
    refine List.forall_mem_cons.mpr ⟨?_, ih⟩
    rw [List.append_assoc]
    exact List.prefix_append _ _

theorem linesOf_members {members : List String} (hne : members ≠ [])
    (h : ∀ member ∈ members, OneLine member) :
    linesOf (",\n".intercalate (members.map ("  " ++ ·))).toList = memberLines members := by
  have hmargin : OneLine "  " := by decide
  rw [String.toList_intercalate, List.map_map]
  fun_induction memberLines members with
  | case1 => exact absurd rfl hne
  | case2 member =>
    have hline := hmargin.append (h member (by simp))
    simpa using linesOf_line hline
  | case3 member next members ih =>
    obtain ⟨hmember, hmembers⟩ := List.forall_mem_cons.mp h
    have hcomma : OneLine "," := by decide
    have hline := linesOf_line ((hmargin.append hmember).append hcomma)
    have hrest := ih (List.cons_ne_nil _ _) hmembers
    have hsplit := linesOf_break ("  " ++ member ++ ",").toList (",\n".toList.intercalate
      ((next :: members).map (String.toList ∘ ("  " ++ ·))))
    rw [hline, hrest] at hsplit
    simpa using hsplit

/-- The lines of the program of a stack. Only the first comment is not known to be one line. -/
theorem linesOf_stackProgram {first tempo : String} {comments members : List String}
    (hcomments : ∀ comment ∈ comments, OneLine comment) (htempo : OneLine tempo)
    (hne : members ≠ []) (hmembers : ∀ member ∈ members, OneLine member) :
    linesOf (stackProgram (first :: comments) tempo members).toList =
      linesOf first.toList ++ (comments.map String.toList ++
        [tempo.toList, "stack(".toList] ++ memberLines members ++ [")".toList]) := by
  have hstack : stackText members = '\n' :: ("stack(".toList ++
      '\n' :: ((",\n".intercalate (members.map ("  " ++ ·))).toList ++ '\n' :: ")".toList)) := by
    simp [stackText]
  have hopen : linesOf "stack(".toList = ["stack(".toList] :=
    linesOf_line (show OneLine "stack(" by decide)
  have hclose : linesOf ")".toList = [")".toList] := linesOf_line (show OneLine ")" by decide)
  rw [toList_stackProgram, commentText, linesOf_flatMap, List.map_cons, List.flatMap_cons, hstack,
    linesOf_break, linesOf_line htempo, linesOf_break, hopen, linesOf_break,
    linesOf_members hne hmembers, hclose, flatMap_linesOf (List.forall_mem_map.mpr hcomments)]
  simp

end Programs

section Imports

variable {data : List UInt8} {filename : String} {options : ImportOptions} {result : Import}
  {gridded : BeatScore} {members : List String}

theorem Stages.tracks_eq (h : Stages data filename options result gridded members)
    (hresult : importBytes data filename options = .ok result) :
    result.tracks = gridded.tracks.length := by
  obtain ⟨score, beats, notices, reports, hscore, hbeats, hgrid⟩ := h.read
  simp only [importBytes, refuseUnusable_eq_ok, bind_eq_ok, Score.convert] at hresult
  obtain ⟨score', hscore', ⟨beats', notices', reports'⟩, hbeats', hconvert⟩ := hresult
  obtain rfl := Except.ok.inj (hscore.symm.trans hscore')
  obtain ⟨rfl, rfl, rfl⟩ : beats = beats' ∧ notices = notices' ∧ reports = reports' := by
    simpa using hbeats.symm.trans hbeats'
  simp only [BeatScore.convert, bind_eq_ok, pure_eq_ok] at hconvert
  obtain ⟨gridded', hgrid', _, _, rfl⟩ := hconvert
  obtain rfl := Except.ok.inj (hgrid.symm.trans hgrid')
  exact List.length_map _

theorem Stages.tracks_ne_nil (h : Stages data filename options result gridded members) :
    gridded.tracks ≠ [] := by
  obtain ⟨_, _, _, _, _, hbeats, hgrid⟩ := h.read
  exact (BeatScore.onGrid_parts hgrid).2 (Score.inBeats_ne_nil hbeats)

/-- The comments behind the one for the file. -/
def BeatScore.trackComments (score : BeatScore) : List String :=
  ("// Tempo: " ++ Decimal.compact score.bpm ++ " BPM | Time: " ++ score.meterText ++
      " | Bars: " ++ toString score.bars) ::
    (score.tracks.map BeatTrack.withSound).map SoundTrack.comment

/-- A program has the lines that it is meant to have: two comments and one more for each track,
the tempo statement, and a stack with one line for each track. -/
def LaidOut (result : Import) : Prop :=
  ∃ comments members : List (List Char),
    linesOf result.code.toList =
      comments ++ [(tempoHeader result.bpm).toList, "stack(".toList] ++ members ++ [")".toList] ∧
    comments.length = 2 + result.tracks ∧ members.length = result.tracks ∧
    (∀ comment ∈ comments, "//".toList <+: comment) ∧ ∀ member ∈ members, "  ".toList <+: member

/-- The lines of a program, when nothing is known of the name of the file. -/
structure HasLines (result : Import) (file : String) (comments members : List String) : Prop where
  lines_eq : linesOf result.code.toList =
    linesOf file.toList ++ (comments.map String.toList ++
      [(tempoHeader result.bpm).toList, "stack(".toList] ++ memberLines members ++ [")".toList])
  comments_length : comments.length = 1 + result.tracks
  comments_start : ∀ comment ∈ comments, "//".toList <+: comment.toList
  comments_oneLine : ∀ comment ∈ comments, OneLine comment
  members_length : members.length = result.tracks
  members_oneLine : ∀ member ∈ members, OneLine member

theorem Stages.hasLines (h : Stages data filename options result gridded members)
    (hresult : importBytes data filename options = .ok result) :
    HasLines result ("// MIDI import: " ++ fileLabel filename) gridded.trackComments members := by
  have hlength : members.length = result.tracks :=
    h.members_eq.length_eq.symm.trans (h.tracks_eq hresult).symm
  have hmembers : ∀ member ∈ members, OneLine member := by
    intro member hmember
    obtain ⟨t, _, hline⟩ := exists_of_forall₂_right h.members_eq hmember
    exact oneLine_line hline
  have hne : members ≠ [] := by
    rintro rfl
    exact h.tracks_ne_nil (List.forall₂_nil_right_iff.mp h.members_eq)
  have hcomments : ∀ comment ∈ gridded.trackComments, OneLine comment := by
    simp only [BeatScore.trackComments, List.forall_mem_cons, List.forall_mem_map]
    exact ⟨oneLine_tempoComment gridded, fun t _ => oneLine_trackComment t⟩
  obtain ⟨hfinite, hpos⟩ := h.bpm_pos
  exact {
    lines_eq := by
      rw [h.code_eq]
      exact linesOf_stackProgram hcomments (oneLine_tempoHeader hfinite hpos) hne hmembers
    comments_length := by
      rw [h.tracks_eq hresult]
      simp [BeatScore.trackComments, Nat.add_comm]
    comments_start := by
      simp [BeatScore.trackComments, SoundTrack.comment]
    comments_oneLine := hcomments
    members_length := hlength
    members_oneLine := hmembers }

theorem HasLines.laidOut_iff {label : String} {comments members : List String}
    (h : HasLines result ("// MIDI import: " ++ label) comments members) :
    LaidOut result ↔ OneLine label := by
  have hopen : OneLine "// MIDI import: " := by decide
  have hfile : (linesOf ("// MIDI import: " ++ label).toList).length = 1 ↔ OneLine label := by
    rw [length_linesOf_eq_one]
    exact oneLine_append.trans (and_iff_right hopen)
  rw [← hfile]
  constructor
  · -- The other lines are as many as they should be, so the file has one line.
    rintro ⟨comments', members', hlines, hcomments, hmembers, _⟩
    have hlength := congrArg List.length (h.lines_eq.symm.trans hlines)
    simp only [List.length_append, List.length_map, length_memberLines, h.comments_length,
      h.members_length, hcomments, hmembers, List.length_cons, List.length_nil] at hlength
    omega
  · intro hone
    have hline := linesOf_line (length_linesOf_eq_one.mp hone)
    refine ⟨("// MIDI import: " ++ label).toList :: comments.map String.toList,
      memberLines members, ?_, ?_, ?_, ?_, memberLines_indented members⟩
    · rw [h.lines_eq, hline]
      simp
    · simp [h.comments_length]
      omega
    · rw [length_memberLines, h.members_length]
    · refine List.forall_mem_cons.mpr ⟨by simp, ?_⟩
      exact List.forall_mem_map.mpr h.comments_start

/-- No line break of a track name reaches a program, and a program has the lines it is meant to
have just if the name of the file, without its extension, has no line break. -/
theorem importBytes_laidOut (h : importBytes data filename options = .ok result) :
    (∃ gridded members, Stages data filename options result gridded members ∧
      HasLines result ("// MIDI import: " ++ fileLabel filename) gridded.trackComments members) ∧
    (LaidOut result ↔ OneLine (fileLabel filename)) := by
  obtain ⟨gridded, members, hstages⟩ := exists_stages h
  have hlines := hstages.hasLines h
  exact ⟨⟨gridded, members, hstages, hlines⟩, hlines.laidOut_iff⟩

theorem leadBytes_laidOut : ∃ result, importBytes leadBytes "lead.mid" {} = .ok result ∧
    LaidOut result := by
  obtain ⟨result, hresult⟩ :=
    eq_ok_of_isOk (x := importBytes leadBytes "lead.mid" {}) (by decide +kernel)
  exact ⟨result, hresult, (importBytes_laidOut hresult).2.mpr (by decide +kernel)⟩

/-- What stands behind a line break in the name of a file is a line of the program, and no
comment. -/
theorem brokenName_leaves_comment : ∃ result, importBytes leadBytes "a\nb.mid" {} = .ok result ∧
    result.code = "\n".intercalate (leadLines "a\nb") ∧
    "b".toList ∈ linesOf result.code.toList ∧ ¬ LaidOut result := by
  have himport : (importBytes leadBytes "a\nb.mid" {}).map (fun r => r.code) =
      .ok ("\n".intercalate (leadLines "a\nb")) := by
    decide +kernel
  have hbroken : ¬ OneLine (fileLabel "a\nb.mid") := by decide +kernel
  cases hresult : importBytes leadBytes "a\nb.mid" {} with
  | error e =>
    rw [hresult] at himport
    cases himport
  | ok result =>
    rw [hresult] at himport
    have hcode : result.code = "\n".intercalate (leadLines "a\nb") := Except.ok.inj himport
    obtain ⟨gridded, members, hstages⟩ := exists_stages hresult
    refine ⟨result, rfl, hcode, ?_, (hstages.hasLines hresult).laidOut_iff.not.mpr hbroken⟩
    rw [hcode]
    decide +kernel

-- A tab in the name of a file is no line break.
example : OneLine (fileLabel "a\tb.mid") := by decide +kernel

end Imports

end Midi
end PatternLoom
