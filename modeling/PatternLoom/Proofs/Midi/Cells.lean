import Mathlib
import PatternLoom.Midi.Steps
import PatternLoom.Proofs.Result
import PatternLoom.Proofs.Midi.PitchName

/-! What the step pattern of a track tells about its notes. Every note is put into the cell of
its step, a cell keeps the distinct pitches or samples in order, and the written pattern reads
as these cells. -/

namespace PatternLoom
namespace Midi

section Members

variable {α : Type} [LinearOrder α] {lt : α → α → Bool}

theorem mem_insertMember (h : ∀ a b, lt a b = true ↔ a < b) {x y : α} {ys : List α} :
    y ∈ insertMember lt x ys ↔ y = x ∨ y ∈ ys := by
  induction ys with
  | nil => rw [insertMember, List.mem_singleton, List.mem_nil_iff, or_false]
  | cons z zs ih =>
    rw [insertMember]
    split
    · exact List.mem_cons
    · rename_i hxz
      split
      · rw [List.mem_cons, ih, List.mem_cons, or_left_comm]
      · rename_i hzx
        rw [h, not_lt] at hxz hzx
        rw [le_antisymm hzx hxz, List.mem_cons, or_self_left]

theorem pairwise_insertMember (h : ∀ a b, lt a b = true ↔ a < b) {x : α} {ys : List α}
    (hys : ys.Pairwise (· < ·)) : (insertMember lt x ys).Pairwise (· < ·) := by
  induction ys with
  | nil => exact List.pairwise_singleton _ _
  | cons z zs ih =>
    obtain ⟨hz, hzs⟩ := List.pairwise_cons.mp hys
    rw [insertMember]
    split
    · rename_i hxz
      rw [h] at hxz
      refine List.pairwise_cons.mpr ⟨fun y hy => ?_, hys⟩
      rcases List.mem_cons.mp hy with rfl | hy
      · exact hxz
      · exact hxz.trans (hz y hy)
    · split
      · rename_i hzx
        rw [h] at hzx
        refine List.pairwise_cons.mpr ⟨fun y hy => ?_, ih hzs⟩
        rcases (mem_insertMember h).mp hy with rfl | hy
        · exact hzx
        · exact hz y hy
      · exact hys

theorem mem_distinctSorted (h : ∀ a b, lt a b = true ↔ a < b) {y : α} {xs : List α} :
    y ∈ distinctSorted lt xs ↔ y ∈ xs := by
  induction xs with
  | nil => exact Iff.rfl
  | cons x xs ih =>
    rw [List.mem_cons, ← ih]
    exact mem_insertMember h

theorem pairwise_distinctSorted (h : ∀ a b, lt a b = true ↔ a < b) (xs : List α) :
    (distinctSorted lt xs).Pairwise (· < ·) := by
  induction xs with
  | nil => exact List.Pairwise.nil
  | cons x xs ih => exact pairwise_insertMember h ih

end Members

section Onsets

/-- Every onset is put into its cell. -/
theorem toList_modify_onsets (cells : Array (List Int)) (onsets : List (Nat × Int)) {i : Nat}
    (hi : i < cells.size) :
    (onsets.foldr (fun onset cells => cells.modify onset.1 (onset.2 :: ·)) cells)[i]? =
      some ((onsets.filter (·.1 = i)).map (·.2) ++ cells[i]) := by
  induction onsets with
  | nil => simp [hi]
  | cons onset onsets ih =>
    rw [List.foldr_cons, Array.getElem?_modify, ih]
    by_cases h : onset.1 = i <;> simp [h]

theorem size_modify_onsets (cells : Array (List Int)) (onsets : List (Nat × Int)) :
    (onsets.foldr (fun onset cells => cells.modify onset.1 (onset.2 :: ·)) cells).size =
      cells.size := by
  induction onsets with
  | nil => rfl
  | cons onset onsets ih => rw [List.foldr_cons, Array.size_modify, ih]

theorem length_stepPitches (total : Nat) (onsets : List (Nat × Int)) :
    (stepPitches total onsets).length = total := by
  rw [stepPitches, Array.length_toList, size_modify_onsets, Array.size_replicate]

theorem stepPitches_getElem? {total : Nat} (onsets : List (Nat × Int)) {i : Nat} (hi : i < total) :
    (stepPitches total onsets)[i]? = some ((onsets.filter (·.1 = i)).map (·.2)) := by
  have hsize : i < (Array.replicate total ([] : List Int)).size := by
    rwa [Array.size_replicate]
  rw [stepPitches, Array.getElem?_toList, toList_modify_onsets _ _ hsize]
  simp

/-- The onsets of a track: the step of each note and its pitch. -/
theorem mem_onsets {total : Nat} {step : Binary64} {notes : List BeatNote}
    {onsets : List (Nat × Int)}
    (h : (notes.mapM fun n => do return (← stepIndex total step n.start, n.pitch)) = .ok onsets)
    {i : Nat} {p : Int} :
    p ∈ (onsets.filter (·.1 = i)).map (·.2) ↔
      ∃ n ∈ notes, n.pitch = p ∧ stepIndex total step n.start = .ok i := by
  have hall := mapM_eq_ok.mp h
  clear h
  induction hall with
  | nil => simp
  | @cons n onset notes onsets hn _ ih =>
    obtain ⟨j, hj, he⟩ := bind_eq_ok.mp hn
    obtain rfl := pure_eq_ok.mp he
    have hcell : j = i ↔ stepIndex total step n.start = .ok i := by
      rw [hj, Except.ok.injEq]
    rw [List.exists_mem_cons_iff, ← hcell]
    by_cases hji : j = i
    · rw [List.filter_cons_of_pos (by simpa using hji), List.map_cons, List.mem_cons]
      exact or_congr ⟨fun h => ⟨h.symm, hji⟩, fun h => h.1.symm⟩ ih
    · rw [List.filter_cons_of_neg (by simpa using hji)]
      exact ih.trans (or_iff_right fun h => hji h.2).symm

end Onsets

section Pattern

/-- What the cells of a track tell: in the cell of each step the pitches that begin there, in
order and each once, or the samples of drums. -/
def BeatTrack.ToldBy (t : BeatTrack) (total : Nat) (step : Binary64) (cells : List (List String)) :
    Prop :=
  cells.length = total ∧ ∀ i cell, cells[i]? = some cell →
    match t.role with
    | .melodic => ∃ pitches : List Int,
        cell.map (fun name => readPitch name.toList) = pitches.map some ∧
        pitches.Pairwise (· < ·) ∧
        ∀ p, p ∈ pitches ↔ ∃ n ∈ t.notes, n.pitch = p ∧ stepIndex total step n.start = .ok i
    | .drum => cell.Pairwise (· < ·) ∧
        ∀ sample, sample ∈ cell ↔
          ∃ n ∈ t.notes, (drumSample n.pitch).1 = sample ∧ stepIndex total step n.start = .ok i

theorem isName_of_mem_cellMembers {role : Role} {sharps : Bool} {pitches : List Int} {name : String}
    (h : name ∈ cellMembers role sharps pitches) : IsName name := by
  cases role with
  | drum =>
    rw [cellMembers, mem_distinctSorted fun _ _ => decide_eq_true_iff] at h
    obtain ⟨p, _, rfl⟩ := List.mem_map.mp h
    exact isName_drumSample p
  | melodic =>
    obtain ⟨p, _, rfl⟩ := List.mem_map.mp h
    exact isName_noteName p sharps

theorem readPitch_cellMembers (sharps : Bool) (pitches : List Int) :
    (cellMembers .melodic sharps pitches).map (fun name => readPitch name.toList) =
      (distinctSorted (fun a b => decide (a < b)) pitches).map some := by
  rw [cellMembers, List.map_map]
  exact List.map_congr_left fun p _ => readPitch_noteName p sharps

theorem toldBy_cellMembers {t : BeatTrack} {total : Nat} {step : Binary64}
    {onsets : List (Nat × Int)} (sharps : Bool)
    (h : (t.notes.mapM fun n => do return (← stepIndex total step n.start, n.pitch)) =
      .ok onsets) :
    t.ToldBy total step ((stepPitches total onsets).map (cellMembers t.role sharps)) := by
  refine ⟨by rw [List.length_map, length_stepPitches], fun i cell hcell => ?_⟩
  rw [List.getElem?_map, Option.map_eq_some_iff] at hcell
  obtain ⟨pitches, hpitches, rfl⟩ := hcell
  have hi : i < total := by
    rw [← length_stepPitches total onsets]
    exact (List.getElem?_eq_some_iff.mp hpitches).1
  obtain rfl := Option.some.inj ((stepPitches_getElem? onsets hi).symm.trans hpitches)
  cases hrole : t.role with
  | drum =>
    dsimp only [cellMembers]
    refine ⟨pairwise_distinctSorted (fun _ _ => decide_eq_true_iff) _, fun sample => ?_⟩
    rw [mem_distinctSorted fun _ _ => decide_eq_true_iff, List.mem_map]
    simp only [mem_onsets h]
    constructor
    · rintro ⟨p, ⟨n, hn, rfl, hindex⟩, rfl⟩
      exact ⟨n, hn, rfl, hindex⟩
    · rintro ⟨n, hn, rfl, hindex⟩
      exact ⟨n.pitch, ⟨n, hn, rfl, hindex⟩, rfl⟩
  | melodic =>
    refine ⟨_, readPitch_cellMembers sharps _,
      pairwise_distinctSorted (fun _ _ => decide_eq_true_iff) _, fun p => ?_⟩
    rw [mem_distinctSorted fun _ _ => decide_eq_true_iff, mem_onsets h]

theorem totalSteps_pos {bars : Int} {beatsPerBar division : Quantity} {total : Nat}
    (h : totalSteps bars beatsPerBar division = .ok total) : 0 < total := by
  simp only [totalSteps, bind_eq_ok, pure_eq_ok] at h
  obtain ⟨_, _, _, _, steps, _, rfl⟩ := h
  omega

/-- The cells of a track are read back from its pattern. -/
theorem readPattern_stepTokens {t : BeatTrack} {bars : Int} {beatsPerBar : Quantity}
    {options : ImportOptions} {tokens : List String}
    (h : stepTokens t bars beatsPerBar options = .ok tokens) :
    ∃ total step onsets, totalSteps bars beatsPerBar options.division.atLeastOne = .ok total ∧
      gridStep options.division.atLeastOne = .ok step ∧
      (t.notes.mapM fun n => do return (← stepIndex total step n.start, n.pitch)) = .ok onsets ∧
      readPattern (" ".intercalate tokens) =
        (stepPitches total onsets).map (cellMembers t.role options.preferSharps) := by
  simp only [stepTokens, stepCells, bind_eq_ok, pure_eq_ok] at h
  obtain ⟨_, ⟨step, hstep, total, htotal, onsets, honsets, rfl⟩, rfl⟩ := h
  refine ⟨total, step, onsets, htotal, hstep, honsets, ?_⟩
  have hne : (stepPitches total onsets).map (cellMembers t.role options.preferSharps) ≠ [] := by
    rw [← List.length_pos_iff, List.length_map, length_stepPitches]
    exact totalSteps_pos htotal
  have hread := readPattern_compress hne fun members hmembers name hname => by
    obtain ⟨pitches, _, rfl⟩ := List.mem_map.mp hmembers
    exact isName_of_mem_cellMembers hname
  rw [List.map_map] at hread
  exact hread

/-- The pattern of a track reads as its cells: as many as there are steps in the piece, whatever
the track, and in each the notes that begin there. -/
theorem stepTokens_tell {t : BeatTrack} {bars : Int} {beatsPerBar : Quantity}
    {options : ImportOptions} {tokens : List String}
    (h : stepTokens t bars beatsPerBar options = .ok tokens) :
    ∃ total step, totalSteps bars beatsPerBar options.division.atLeastOne = .ok total ∧
      gridStep options.division.atLeastOne = .ok step ∧
      t.ToldBy total step (readPattern (" ".intercalate tokens)) := by
  obtain ⟨total, step, onsets, htotal, hstep, honsets, hread⟩ := readPattern_stepTokens h
  refine ⟨total, step, htotal, hstep, ?_⟩
  rw [hread]
  exact toldBy_cellMembers options.preferSharps honsets

/-- Two chords in one bar: the first has a pitch below the named octaves and a flat, and a pitch
that sounds twice. -/
def chords : BeatTrack where
  index := 0
  name := "Chords"
  role := .melodic
  channel := none
  program := none
  notes := [⟨58, 0.5, 0, 1, none, none⟩, ⟨-1, 0.5, 0.25, 1, none, none⟩, ⟨58, 0.5, 0.25, 1, none, none⟩,
    ⟨60, 0.5, 1, 1, none, none⟩]

/-- A grid of one step in each beat. -/
def beatGrid : ImportOptions := { division := .whole 1 }

theorem chords_tell : ∃ tokens, stepTokens chords 1 (.real 4) beatGrid = .ok tokens ∧
    ∃ total step, totalSteps 1 (.real 4) beatGrid.division.atLeastOne = .ok total ∧
      gridStep beatGrid.division.atLeastOne = .ok step ∧
      chords.ToldBy total step (readPattern (" ".intercalate tokens)) := by
  have hok : (stepTokens chords 1 (.real 4) beatGrid).isOk := by decide +kernel
  obtain ⟨tokens, htokens⟩ := eq_ok_of_isOk hok
  exact ⟨tokens, htokens, stepTokens_tell htokens⟩

example : stepTokens chords 1 (.real 4) beatGrid = .ok ["[b-2 bb3]", "c4", "~!2"] := by
  decide +kernel

end Pattern

end Midi
end PatternLoom
