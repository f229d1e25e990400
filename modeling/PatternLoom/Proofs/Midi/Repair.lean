import PatternLoom.Proofs.Midi.Spacing
import PatternLoom.Proofs.Order.Stable

/-! What repair makes of each note. The notes are taken in their order, and what becomes of a note
depends on the repaired notes before it only through the last one of its pitch. -/

namespace PatternLoom

namespace Midi

open Binary64

section Order

/-- Order by start, then by pitch. -/
def BeatNote.NotAfter (a b : BeatNote) : Prop :=
  a.start < b.start ∨ a.start.equal b.start ∧ a.pitch ≤ b.pitch

/-- The notes in their order, those of one start and pitch in the order of before. -/
structure StablyOrdered (notes ordered : List BeatNote) : Prop where
  perm : ordered.Perm notes
  sorted : ordered.Pairwise BeatNote.NotAfter
  stable : ∀ part : List BeatNote, part.Sublist notes → part.Pairwise BeatNote.NotAfter →
    part.Sublist ordered

def BeatNote.key (n : BeatNote) : ℚ ×ₗ Int := toLex (n.start.value, n.pitch)

theorem BeatNote.notAfter_iff {a b : BeatNote} (ha : a.start.isFinite) (hb : b.start.isFinite) :
    a.NotAfter b ↔ a.key ≤ b.key := by
  rw [NotAfter, key, key, Prod.Lex.toLex_le_toLex, lt_iff_value ha hb, equal_iff_value ha hb]

theorem BeatNote.not_precedes_eq {a b : BeatNote} (ha : a.start.isFinite) (hb : b.start.isFinite) :
    (!b.precedes a) = decide (a.key ≤ b.key) :=
  not_before_eq ha hb

theorem stablyOrdered_sortNotes {notes : List BeatNote} (h : ∀ n ∈ notes, n.start.isFinite) :
    StablyOrdered notes (sortNotes notes) := by
  have hsorted : StablySortedBy BeatNote.key notes (sortNotes notes) := by
    rw [sortNotes_eq_mergeSort fun n hn => isNan_of_isFinite (h n hn)]
    exact stablySortedBy_mergeSort fun a ha b hb => BeatNote.not_precedes_eq (h a ha) (h b hb)
  have hfinite : ∀ n ∈ sortNotes notes, n.start.isFinite :=
    fun n hn => h n (hsorted.perm.mem_iff.mp hn)
  refine ⟨hsorted.perm, hsorted.sorted.imp_of_mem fun ha hb hab => ?_, fun part hpart hall => ?_⟩
  · exact (BeatNote.notAfter_iff (hfinite _ ha) (hfinite _ hb)).mpr hab
  · refine hsorted.stable part hpart (hall.imp_of_mem fun ha hb hab => ?_)
    exact (BeatNote.notAfter_iff (h _ (hpart.subset ha)) (h _ (hpart.subset hb))).mp hab

end Order

section Repair

variable {minDuration : Binary64} {ends : Ends} {before notes : List BeatNote} {n r : BeatNote}

/-- The last of some notes that has a pitch. -/
def lastOf (pitch : Int) (notes : List BeatNote) : Option BeatNote :=
  notes.findRev? fun n => n.pitch = pitch

/-- A note `r` that `n` is repaired to behind repaired notes. It keeps its length if it has one, and
it begins where it did or, if that is later, where the last note of its pitch ends. -/
structure BeatNote.RepairedTo (minDuration : Binary64) (before : List BeatNote) (n r : BeatNote) :
    Prop where
  label_eq : r.label = n.label
  duration_eq : r.duration = if 0 < n.duration then n.duration else minDuration
  start_eq : r.start = match lastOf n.pitch before with
    | none => n.start
    | some last => n.start.larger last.stop
  start_le : n.start ≤ r.start
  stop_le : ∀ last, lastOf n.pitch before = some last → last.stop ≤ r.start

theorem BeatNote.RepairedTo.pitch_eq (h : n.RepairedTo minDuration before r) : r.pitch = n.pitch :=
  congrArg Label.pitch h.label_eq

theorem lastOf_concat (pitch : Int) (notes : List BeatNote) (n : BeatNote) :
    lastOf pitch (notes ++ [n]) = if n.pitch = pitch then some n else lastOf pitch notes := by
  rw [lastOf, lastOf, List.findRev?_eq_find?_reverse, List.findRev?_eq_find?_reverse,
    List.reverse_concat, List.find?_cons]
  by_cases h : n.pitch = pitch <;> simp [h]

theorem mem_of_lastOf {pitch : Int} (h : lastOf pitch notes = some n) : n ∈ notes := by
  rw [lastOf, List.findRev?_eq_find?_reverse] at h
  exact List.mem_reverse.mp (List.mem_of_find?_eq_some h)

theorem pitch_of_lastOf {pitch : Int} (h : lastOf pitch notes = some n) : n.pitch = pitch := by
  rw [lastOf, List.findRev?_eq_find?_reverse] at h
  simpa using List.find?_some h

/-- The ends in hand are those of the repaired notes, the last one first. -/
def endsOf (notes : List BeatNote) : Ends := (notes.map fun n => (n.pitch, n.stop)).reverse

theorem endsOf_concat (notes : List BeatNote) (n : BeatNote) :
    endsOf (notes ++ [n]) = (n.pitch, n.stop) :: endsOf notes := by
  rw [endsOf, List.map_append, List.reverse_append]
  rfl

theorem lookup_endsOf (pitch : Int) (notes : List BeatNote) :
    (endsOf notes).lookup pitch = (lastOf pitch notes).map BeatNote.stop := by
  induction notes using List.reverseRecOn with
  | nil => rfl
  | append_singleton notes n ih =>
    rw [endsOf_concat, lastOf_concat, List.lookup_cons]
    by_cases h : n.pitch = pitch
    · rw [if_pos h, beq_iff_eq.mpr h.symm]
      rfl
    · rw [if_neg h, beq_false_of_ne (Ne.symm h)]
      exact ih

/-- A repaired note has the start and the length that the last end of its pitch leaves it. -/
theorem repairNote_eq (hpos : 0 < minDuration) {stop duration : Binary64}
    (hstop : (ends.lookup n.pitch).getD (.infinity true) = stop)
    (hduration : (if n.duration ≤ 0 then minDuration else n.duration) = duration) :
    repairNote minDuration ends n =
      ({ n with start := n.start.larger stop, duration := duration },
        (if n.start < stop then 1 else 0) + (if n.duration ≤ 0 then 1 else 0),
        n.start.larger stop + duration) := by
  have hsame : ((n.start.larger stop).equal n.start && duration.equal n.duration) = true →
      n = { n with start := n.start.larger stop, duration := duration } := by
    rw [Bool.and_eq_true, larger, ← hduration]
    rintro ⟨hs, he⟩
    split at hs
    · rename_i hmoved
      rw [equal_eq_false_of_lt hmoved] at hs
      cases hs
    · split at he
      · rename_i hempty
        rw [equal_eq_false_of_lt (lt_of_nonpos_of_pos hempty hpos)] at he
        cases he
      · rename_i hkept hlong
        rw [if_neg hkept, if_neg hlong]
  rw [repairNote, hstop, hduration]
  change (if ((n.start.larger stop).equal n.start && duration.equal n.duration) = true then n
    else _, _, _) = _
  split
  · rename_i hequal
    rw [← hsame hequal]
    rfl
  · rfl

/-- How many changes repair makes to a note. -/
def BeatNote.changes (n r : BeatNote) : Nat :=
  (if r.start = n.start then 0 else 1) + (if r.duration = n.duration then 0 else 1)

theorem lengthened_eq_iff (hpos : 0 < minDuration) {x : Binary64} :
    (if x ≤ 0 then minDuration else x) = x ↔ ¬ x ≤ 0 := by
  constructor
  · intro h hle
    rw [if_pos hle] at h
    exact ne_of_lt (lt_of_nonpos_of_pos hle hpos) h
  · exact fun h => if_neg h

theorem repairNote_repaired (hpos : 0 < minDuration) (hbefore : ∀ r ∈ before, r.stop.isNan = false)
    (hn : n.start.isFinite) (hd : n.duration.isFinite) :
    ∃ r, repairNote minDuration (endsOf before) n = (r, n.changes r, r.stop) ∧
      n.RepairedTo minDuration before r ∧ r.stop.isNan = false := by
  have hlookup := lookup_endsOf n.pitch before
  obtain ⟨stop, hstop⟩ : ∃ stop, ((endsOf before).lookup n.pitch).getD (.infinity true) = stop :=
    ⟨_, rfl⟩
  obtain ⟨duration, hduration⟩ : ∃ d, (if n.duration ≤ 0 then minDuration else n.duration) = d :=
    ⟨_, rfl⟩
  have hlong : duration = if 0 < n.duration then n.duration else minDuration := by
    simp only [← hduration, pos_iff hd, ite_not]
  have hdpos : 0 < duration := by
    rw [hlong]
    split
    · assumption
    · exact hpos
  have hnan : stop.isNan = false := by
    rw [← hstop, hlookup]
    cases hlast : lastOf n.pitch before with
    | none => rfl
    | some last => exact hbefore last (mem_of_lastOf hlast)
  obtain ⟨hstart, hproper, hle, hstopLe⟩ := larger_spec hn hnan
  have hmoved : (if n.start < stop then 1 else 0) =
      if n.start.larger stop = n.start then 0 else 1 := by
    simp only [larger_eq_left_iff, ite_not]
  have hreplaced : (if n.duration ≤ 0 then 1 else 0) = if duration = n.duration then 0 else 1 := by
    simp only [← hduration, lengthened_eq_iff hpos, ite_not]
  refine ⟨{ n with start := n.start.larger stop, duration := duration }, ?_,
    ⟨rfl, hlong, ?_, hle, ?_⟩, isNan_add_of_pos hstart hproper hdpos⟩
  · rw [repairNote_eq hpos hstop hduration, hmoved, hreplaced]
    rfl
  · rw [← hstop, hlookup]
    cases lastOf n.pitch before with
    | none => exact if_neg (not_lt_infinity _)
    | some last => rfl
  · rintro last hlast
    rw [hlast] at hlookup
    rw [hlookup] at hstop
    obtain rfl : last.stop = stop := hstop
    exact hstopLe

/-- Repaired notes, each by those before it. -/
def RepairedInTurn (minDuration : Binary64) (before notes repaired : List BeatNote) : Prop :=
  repaired.length = notes.length ∧ ∀ i (n r : BeatNote), notes[i]? = some n → repaired[i]? = some r →
    n.RepairedTo minDuration (before ++ repaired.take i) r

theorem RepairedInTurn.cons {repaired : List BeatNote} (hr : n.RepairedTo minDuration before r)
    (h : RepairedInTurn minDuration (before ++ [r]) notes repaired) :
    RepairedInTurn minDuration before (n :: notes) (r :: repaired) := by
  obtain ⟨hlength, hall⟩ := h
  refine ⟨congrArg (· + 1) hlength, fun i m s hm hs => ?_⟩
  cases i with
  | zero =>
    obtain rfl := Option.some.inj hm
    obtain rfl := Option.some.inj hs
    rwa [List.take_zero, List.append_nil]
  | succ i =>
    have hrest := hall i m s hm hs
    rwa [List.append_assoc] at hrest

/-- Pairs of a note and its repaired one that begin, or last, differently. -/
def changesOf (pairs : List (BeatNote × BeatNote)) : Nat :=
  pairs.countP (fun p => p.2.start ≠ p.1.start) + pairs.countP fun p => p.2.duration ≠ p.1.duration

theorem changesOf_cons (n r : BeatNote) (pairs : List (BeatNote × BeatNote)) :
    changesOf ((n, r) :: pairs) = n.changes r + changesOf pairs := by
  simp only [changesOf, List.countP_cons, BeatNote.changes, decide_eq_true_eq, ite_not]
  omega

theorem repairFrom_repaired (hpos : 0 < minDuration) (hbefore : ∀ r ∈ before, r.stop.isNan = false)
    (hfinite : ∀ n ∈ notes, n.start.isFinite ∧ n.duration.isFinite) :
    ∃ repaired, repairFrom minDuration (endsOf before) notes =
        (repaired, changesOf (notes.zip repaired)) ∧
      RepairedInTurn minDuration before notes repaired := by
  -- The repaired notes pile up in `before`, and their ends in front of those in hand.
  induction notes generalizing before with
  | nil => exact ⟨[], rfl, rfl, by simp⟩
  | cons n notes ih =>
    obtain ⟨⟨hn, hd⟩, hrest⟩ := List.forall_mem_cons.mp hfinite
    obtain ⟨r, hr, hrepaired, hnan⟩ := repairNote_repaired hpos hbefore hn hd
    have hbefore' : ∀ r' ∈ before ++ [r], r'.stop.isNan = false :=
      List.forall_mem_append.mpr ⟨hbefore, List.forall_mem_singleton.mpr hnan⟩
    obtain ⟨repaired, hrun, hturn⟩ := ih hbefore' hrest
    rw [endsOf_concat, hrepaired.pitch_eq] at hrun
    refine ⟨r :: repaired, ?_, hturn.cons hrepaired⟩
    rw [repairFrom, hr]
    dsimp only
    rw [hrun, List.zip_cons_cons, changesOf_cons]

/-- Repair takes the notes in their order, stably, moves each one no further than it has to and
counts what it changes. -/
theorem repairOverlaps_minimal (hpos : 0 < minDuration)
    (hfinite : ∀ n ∈ notes, n.start.isFinite ∧ n.duration.isFinite) :
    ∃ ordered repaired, repairOverlaps notes minDuration =
        (repaired, changesOf (ordered.zip repaired)) ∧
      StablyOrdered notes ordered ∧ RepairedInTurn minDuration [] ordered repaired := by
  have hordered := stablyOrdered_sortNotes fun n hn => (hfinite n hn).1
  have hnone : ∀ r ∈ ([] : List BeatNote), r.stop.isNan = false := by simp
  obtain ⟨repaired, hrun, hturn⟩ := repairFrom_repaired hpos hnone
    fun n hn => hfinite n (hordered.perm.mem_iff.mp hn)
  exact ⟨_, repaired, hrun, hordered, hturn⟩

/-- A note without length between two of its pitch, and one of another pitch behind them. -/
def crowded : List BeatNote := [
  ⟨60, 0.5, 0.5, 0, none, none⟩, ⟨60, 0.75, 0, 1, none, none⟩, ⟨60, 1, 1, 1, none, none⟩,
  ⟨62, 0.5, 1, 1, none, none⟩]

theorem crowded_minimal : ∃ ordered repaired, repairOverlaps crowded 0.25 =
      (repaired, changesOf (ordered.zip repaired)) ∧
    StablyOrdered crowded ordered ∧ RepairedInTurn 0.25 [] ordered repaired :=
  repairOverlaps_minimal (by decide +kernel) (by decide +kernel)

end Repair
end Midi
end PatternLoom
