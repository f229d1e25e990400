import Mathlib
import PatternLoom.Midi.Score

/-! The notes of a track are those its events begin. Pairing only moves a note from the open
ones to the closed ones, so that both together are what was pressed so far. -/

namespace PatternLoom
namespace Midi

/-- What a note is, whenever it sounds. -/
structure Label where
  pitch : Int
  velocity : Binary64
  channel : Option Int
  program : Option Int
  deriving DecidableEq

def TickNote.label (n : TickNote) : Label := ⟨n.pitch, n.velocity, n.channel, n.program⟩

def OpenNote.label (key : Key) (n : OpenNote) : Label :=
  ⟨key.2, n.velocity, some key.1, n.program.map Int.ofNat⟩

namespace Event

/-- A note-on that is not silent. -/
def isPress (e : Event) : Bool :=
  match e.message with
  | .noteOn _ _ velocity => 0 < velocity
  | _ => false

/-- The programs of the channels after an event, the last one first. -/
def programsAfter (programs : List (Nat × Nat)) (e : Event) : List (Nat × Nat) :=
  match e.message with
  | .program channel number => (channel, number) :: programs
  | _ => programs

/-- The note that an event begins, if it does. -/
def pressed (programs : List (Nat × Nat)) (e : Event) : List Label :=
  match e.message with
  | .noteOn channel pitch velocity =>
    if 0 < velocity then
      [⟨pitch, velocityShare velocity, some channel, (programs.lookup channel).map Int.ofNat⟩]
    else []
  | _ => []

theorem length_pressed (programs : List (Nat × Nat)) (e : Event) :
    (e.pressed programs).length = if e.isPress then 1 else 0 := by
  unfold pressed isPress
  cases e.message with
  | noteOn channel pitch velocity => by_cases hv : 0 < velocity <;> simp [hv]
  | _ => simp

end Event

/-- The notes that events begin, given the programs of the channels. -/
def pressedFrom (programs : List (Nat × Nat)) : List Event → List Label
  | [] => []
  | e :: events => e.pressed programs ++ pressedFrom (e.programsAfter programs) events

/-- The notes that the events of a track begin. -/
def pressed (events : List Event) : List Label := pressedFrom [] events

theorem length_pressedFrom (programs : List (Nat × Nat)) (events : List Event) :
    (pressedFrom programs events).length = events.countP Event.isPress := by
  induction events generalizing programs with
  | nil => rfl
  | cons e events ih =>
    rw [pressedFrom, List.length_append, ih, Event.length_pressed, List.countP_cons, Nat.add_comm]

theorem length_pressed (events : List Event) :
    (pressed events).length = events.countP Event.isPress := length_pressedFrom [] events

namespace OpenNotes

def labels (opened : OpenNotes) : List Label :=
  opened.flatMap fun (key, queue) => queue.map (OpenNote.label key)

/-- A change to one queue leaves the notes of the others. -/
theorem labels_update (key : Key) (f : List OpenNote → List OpenNote) (opened : OpenNotes) :
    ∃ others, opened.labels.Perm ((opened.queue key).map (OpenNote.label key) ++ others) ∧
      (opened.update key f).labels.Perm
        ((f (opened.queue key)).map (OpenNote.label key) ++ others) := by
  induction opened with
  | nil => exact ⟨[], .refl _, .refl _⟩
  | cons entry opened ih =>
    obtain ⟨k, queue⟩ := entry
    by_cases hk : k = key
    · subst hk
      exact ⟨labels opened, by simp [labels, OpenNotes.queue], by simp [labels, update, OpenNotes.queue]⟩
    · obtain ⟨others, hbefore, hafter⟩ := ih
      have hqueue : OpenNotes.queue key ((k, queue) :: opened) = OpenNotes.queue key opened := by
        simp [OpenNotes.queue, List.lookup_cons, beq_eq_false_iff_ne.mpr (Ne.symm hk)]
      have hmove : ∀ own : List Label, (queue.map (OpenNote.label k) ++ (own ++ others)).Perm
          (own ++ (queue.map (OpenNote.label k) ++ others)) := by
        intro own
        rw [← List.append_assoc, ← List.append_assoc]
        exact List.perm_append_comm.append_right others
      refine ⟨queue.map (OpenNote.label k) ++ others, ?_, ?_⟩
      · rw [hqueue]
        exact (hbefore.append_left _).trans (hmove _)
      · rw [hqueue, update, if_neg hk]
        exact (hafter.append_left _).trans (hmove _)

theorem labels_enqueue (key : Key) (n : OpenNote) (opened : OpenNotes) :
    (opened.update key (· ++ [n])).labels.Perm (n.label key :: opened.labels) := by
  obtain ⟨others, hbefore, hafter⟩ := labels_update key (· ++ [n]) opened
  refine hafter.trans ?_
  rw [List.map_append, List.append_assoc]
  exact List.perm_middle.trans (hbefore.symm.cons _)

theorem labels_dequeue {key : Key} {n : OpenNote} {queue : List OpenNote} {opened : OpenNotes}
    (h : opened.queue key = n :: queue) :
    (n.label key :: (opened.update key (·.drop 1)).labels).Perm opened.labels := by
  obtain ⟨others, hbefore, hafter⟩ := labels_update key (·.drop 1) opened
  rw [h] at hbefore hafter
  exact (hafter.cons _).trans hbefore.symm

theorem labels_dequeue_empty {key : Key} {opened : OpenNotes} (h : opened.queue key = []) :
    (opened.update key (·.drop 1)).labels.Perm opened.labels := by
  obtain ⟨others, hbefore, hafter⟩ := labels_update key (·.drop 1) opened
  rw [h] at hbefore hafter
  exact hafter.trans hbefore.symm

end OpenNotes

namespace Pairing

/-- The notes of a track so far, closed or still open. -/
def labels (p : Pairing) : List Label := p.closed.map TickNote.label ++ p.opened.labels

theorem labels_press (p : Pairing) (key : Key) (velocity : Nat) :
    (p.press key velocity).labels.Perm ((p.begun key.1 velocity).label key :: p.labels) :=
  ((OpenNotes.labels_enqueue key _ p.opened).append_left _).trans List.perm_middle

theorem labels_release (p : Pairing) (key : Key) : (p.release key).labels.Perm p.labels := by
  unfold release
  cases hq : p.opened.queue key with
  | nil => exact (OpenNotes.labels_dequeue_empty hq).append_left _
  | cons n queue =>
    have hmove := (OpenNotes.labels_dequeue hq).append_left (p.closed.map TickNote.label)
    exact List.perm_middle.symm.trans hmove

theorem programs_release (p : Pairing) (key : Key) : (p.release key).programs = p.programs := by
  unfold release
  cases p.opened.queue key with
  | nil => rfl
  | cons n queue => rfl

theorem programs_step (p : Pairing) (e : Event) :
    (p.step e).programs = e.programsAfter p.programs := by
  obtain ⟨delta, message⟩ := e
  cases message with
  | noteOn channel pitch velocity =>
    cases velocity with
    | zero => exact programs_release _ _
    | succ velocity => rfl
  | noteOff channel pitch => exact programs_release _ _
  | trackName name =>
    simp only [step, Event.programsAfter]
    split <;> rfl
  | _ => rfl

/-- An event adds the note it begins and keeps the others. -/
theorem labels_step (p : Pairing) (e : Event) :
    (p.step e).labels.Perm (e.pressed p.programs ++ p.labels) := by
  obtain ⟨delta, message⟩ := e
  cases message with
  | noteOn channel pitch velocity =>
    cases velocity with
    | zero => exact labels_release _ _
    | succ velocity =>
      simp only [Event.pressed, if_pos (Nat.succ_pos _), List.singleton_append]
      exact labels_press _ (channel, pitch) (velocity + 1)
  | noteOff channel pitch => exact labels_release _ _
  | trackName name =>
    simp only [step, Event.pressed]
    split <;> exact .refl _
  | _ => exact .refl _

theorem labels_foldl (p : Pairing) (events : List Event) :
    (events.foldl step p).labels.Perm (pressedFrom p.programs events ++ p.labels) := by
  induction events generalizing p with
  | nil => exact .refl _
  | cons e events ih =>
    have hstep := (labels_step p e).append_left (pressedFrom (e.programsAfter p.programs) events)
    have hrest := ih (p.step e)
    rw [programs_step] at hrest
    rw [List.foldl_cons, pressedFrom, List.append_assoc]
    refine (hrest.trans hstep).trans ?_
    rw [← List.append_assoc, ← List.append_assoc]
    exact List.perm_append_comm.append_right p.labels

theorem map_label_notes (p : Pairing) : (p.notes.map TickNote.label).Perm p.labels := by
  have hopen : p.stillOpen.map TickNote.label = p.opened.labels := by
    simp only [stillOpen, OpenNotes.labels, List.map_flatMap, List.map_map]
    rfl
  rw [notes, List.map_append, hopen]
  exact ((List.reverse_perm p.closed).map TickNote.label).append_right _

end Pairing

/-- A track has the notes that its events begin, each once. -/
theorem map_label_ofEvents (index : Nat) (events : List Event) :
    ((TickTrack.ofEvents index events).notes.map TickNote.label).Perm (pressed events) := by
  have hsort := (List.mergeSort_perm (pairing events).notes fun a b => !b.precedes a).map
    TickNote.label
  have hfold := Pairing.labels_foldl {} events
  have hempty : Pairing.labels {} = [] := rfl
  rw [hempty, List.append_nil] at hfold
  exact hsort.trans ((Pairing.map_label_notes _).trans hfold)

end Midi
end PatternLoom
