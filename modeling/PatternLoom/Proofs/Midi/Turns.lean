import PatternLoom.Proofs.Midi.Pairing

/-! Which note-on each note of a track comes from, and what ends it. A key is a queue: its note-ons
begin its notes in turn, and what closes them ends them in the same turn. -/

namespace PatternLoom
namespace Midi

namespace Event

/-- How hard an event strikes a key, if it does. -/
def strikes? (key : Key) (e : Event) : Option Nat :=
  match e.message with
  | .noteOn channel pitch velocity =>
    if (channel, pitch) = key ∧ 0 < velocity then some velocity else none
  | _ => none

/-- Whether an event lets go of a key. -/
def releases (key : Key) (e : Event) : Bool :=
  match e.message with
  | .noteOn channel pitch velocity => (channel, pitch) = key ∧ velocity = 0
  | .noteOff channel pitch => (channel, pitch) = key
  | _ => false

/-- The program that an event sets for a channel, if it does. -/
def program? (channel : Nat) (e : Event) : Option Nat :=
  match e.message with
  | .program c number => if c = channel then some number else none
  | _ => none

theorem releases_of_strikes {key : Key} {e : Event} {velocity : Nat}
    (h : e.strikes? key = some velocity) : e.releases key = false := by
  obtain ⟨delta, message⟩ := e
  cases message with
  | noteOn channel pitch v =>
    simp only [strikes?, Option.ite_none_right_eq_some] at h
    simp only [releases, decide_eq_false_iff_not]
    omega
  | _ => cases h

end Event

section History

variable {events : List Event} {key : Key}

/-- Each event with those before it. -/
def historiesFrom (before : List Event) : List Event → List (List Event × Event)
  | [] => []
  | e :: events => (before, e) :: historiesFrom (before ++ [e]) events

theorem historiesFrom_concat (before events : List Event) (e : Event) :
    historiesFrom before (events ++ [e]) = historiesFrom before events ++ [(before ++ events, e)] := by
  induction events generalizing before with
  | nil => simp [historiesFrom]
  | cons d events ih => simp [historiesFrom, ih]

/-- Ticks from the start of a track to the last of some events. -/
def ticksOf (events : List Event) : Nat := (events.map Event.delta).sum

/-- The program last set for a channel. -/
def programOn (channel : Nat) (events : List Event) : Option Nat :=
  (events.filterMap (Event.program? channel)).getLast?

/-- How many notes of a key sound after some events. -/
def sounding (key : Key) (events : List Event) : Nat :=
  events.foldl (fun n e =>
    if (e.strikes? key).isSome then n + 1 else if e.releases key then n - 1 else n) 0

/-- A note-on, with the program its channel has when it comes. -/
structure Strike where
  tick : Nat
  velocity : Nat
  program : Option Nat

/-- The note of a key that a note-on begins and that is held until a tick, for one tick at least. -/
def Strike.held (s : Strike) (key : Key) (stop : Nat) : TickNote where
  pitch := key.2
  velocity := velocityShare s.velocity
  start := s.tick
  duration := max 1 ((stop : Int) - s.tick)
  channel := some key.1
  program := s.program.map Int.ofNat

/-- The note-ons of a key. -/
def strikes (key : Key) (events : List Event) : List Strike :=
  (historiesFrom [] events).filterMap fun (before, e) =>
    (e.strikes? key).map fun velocity =>
      ⟨ticksOf (before ++ [e]), velocity, programOn key.1 before⟩

/-- When an event lets go of a key of which a note sounds. -/
def closings (key : Key) (events : List Event) : List Nat :=
  (historiesFrom [] events).filterMap fun (before, e) =>
    if e.releases key ∧ 0 < sounding key before then some (ticksOf (before ++ [e])) else none

/-- The notes of a key, in the order of its note-ons: each ends with the closing in its turn, or with
the track. -/
def turns (key : Key) (events : List Event) : List TickNote :=
  (strikes key events).mapIdx fun i s => s.held key ((closings key events)[i]?.getD (ticksOf events))

theorem ticksOf_concat (events : List Event) (e : Event) :
    ticksOf (events ++ [e]) = ticksOf events + e.delta := by
  simp [ticksOf]

theorem programOn_concat (channel : Nat) (events : List Event) (e : Event) :
    programOn channel (events ++ [e]) = (e.program? channel).or (programOn channel events) := by
  rw [programOn, programOn, List.filterMap_append]
  cases h : e.program? channel <;> simp [h]

theorem sounding_concat (key : Key) (events : List Event) (e : Event) :
    sounding key (events ++ [e]) = if (e.strikes? key).isSome then sounding key events + 1
      else if e.releases key then sounding key events - 1 else sounding key events := by
  rw [sounding, List.foldl_concat]
  rfl

theorem strikes_concat (key : Key) (events : List Event) (e : Event) :
    strikes key (events ++ [e]) = strikes key events ++ ((e.strikes? key).map fun velocity =>
      ⟨ticksOf (events ++ [e]), velocity, programOn key.1 events⟩).toList := by
  rw [strikes, historiesFrom_concat, List.filterMap_append, List.nil_append]
  cases h : e.strikes? key <;> simp [strikes, h]

theorem closings_concat (key : Key) (events : List Event) (e : Event) :
    closings key (events ++ [e]) = closings key events ++
      if e.releases key ∧ 0 < sounding key events then [ticksOf (events ++ [e])] else [] := by
  rw [closings, historiesFrom_concat, List.filterMap_append, List.nil_append]
  by_cases h : e.releases key ∧ 0 < sounding key events <;> simp [closings, h]

/-- Every note of a key is closed, or sounds still. -/
theorem sounding_add_closings (key : Key) (events : List Event) :
    sounding key events + (closings key events).length = (strikes key events).length := by
  induction events using List.reverseRecOn with
  | nil => rfl
  | append_singleton events e ih =>
    rw [sounding_concat, closings_concat, strikes_concat, List.length_append, List.length_append]
    cases hs : e.strikes? key with
    | some velocity =>
      rw [Event.releases_of_strikes hs]
      simp
      omega
    | none =>
      cases e.releases key with
      | false => simpa using ih
      | true =>
        by_cases h : 0 < sounding key events
        · simp [h]
          omega
        · simp [h]
          omega

/-- Ticks in their order, none after `last`. -/
structure InTime (last : Nat) (ticks : List Nat) : Prop where
  sorted : ticks.Pairwise (· ≤ ·)
  le_last : ∀ tick ∈ ticks, tick ≤ last

theorem InTime.append {last last' : Nat} {ticks more : List Nat} (h : InTime last ticks)
    (hle : last ≤ last') (hmore : ∀ tick ∈ more, tick = last') : InTime last' (ticks ++ more) := by
  refine ⟨List.pairwise_append.mpr ⟨h.sorted, ?_, ?_⟩, List.forall_mem_append.mpr ⟨?_, ?_⟩⟩
  · exact List.pairwise_of_forall_mem_list fun a ha b hb => (hmore a ha).trans_le (hmore b hb).ge
  · exact fun a ha b hb => ((h.le_last a ha).trans hle).trans (hmore b hb).ge
  · exact fun a ha => (h.le_last a ha).trans hle
  · exact fun a ha => (hmore a ha).le

theorem inTime_strikes (key : Key) (events : List Event) :
    InTime (ticksOf events) ((strikes key events).map Strike.tick) := by
  induction events using List.reverseRecOn with
  | nil => exact ⟨.nil, nofun⟩
  | append_singleton events e ih =>
    rw [strikes_concat, List.map_append]
    refine ih.append ?_ fun tick htick => ?_
    · exact (ticksOf_concat events e).symm ▸ Nat.le_add_right _ _
    · cases hs : e.strikes? key <;> simp_all

theorem inTime_closings (key : Key) (events : List Event) :
    InTime (ticksOf events) (closings key events) := by
  induction events using List.reverseRecOn with
  | nil => exact ⟨.nil, nofun⟩
  | append_singleton events e ih =>
    rw [closings_concat]
    refine ih.append ?_ fun tick htick => ?_
    · exact (ticksOf_concat events e).symm ▸ Nat.le_add_right _ _
    · split at htick <;> simp_all

end History

namespace OpenNotes

variable {key key' : Key} {f : List OpenNote → List OpenNote} {opened : OpenNotes}

def keys (opened : OpenNotes) : List Key := opened.map Prod.fst

theorem queue_cons (key k : Key) (queue : List OpenNote) (opened : OpenNotes) :
    OpenNotes.queue key ((k, queue) :: opened) = if k = key then queue else opened.queue key := by
  rw [OpenNotes.queue, List.lookup_cons]
  by_cases h : k = key
  · simp [h]
  · simp [h, beq_eq_false_iff_ne.mpr (Ne.symm h), OpenNotes.queue]

theorem queue_eq_nil (h : key ∉ opened.keys) : opened.queue key = [] := by
  rw [OpenNotes.queue, List.lookup_eq_none_iff.mpr, Option.getD_none]
  rintro ⟨k, queue⟩ hmem
  exact bne_iff_ne.mpr fun hk => h (List.mem_map.mpr ⟨_, hmem, hk.symm⟩)

theorem queue_update (key key' : Key) (f : List OpenNote → List OpenNote) (opened : OpenNotes) :
    (opened.update key f).queue key' =
      if key = key' then f (opened.queue key') else opened.queue key' := by
  induction opened with
  | nil =>
    rw [update, queue_cons]
    split <;> rfl
  | cons entry opened ih =>
    obtain ⟨k, queue⟩ := entry
    by_cases hk : k = key
    · subst hk
      rw [update, if_pos rfl, queue_cons, queue_cons]
      split <;> rfl
    · rw [update, if_neg hk, queue_cons, queue_cons, ih]
      by_cases hkey : key = key'
      · simp [hkey ▸ hk, hkey]
      · simp [hkey]

theorem mem_keys_update : key' ∈ (opened.update key f).keys ↔ key' = key ∨ key' ∈ opened.keys := by
  induction opened with
  | nil => simp [keys, update]
  | cons entry opened ih =>
    obtain ⟨k, queue⟩ := entry
    rw [update]
    simp only [keys] at ih ⊢
    split
    · rename_i hk
      simp [hk]
    · simp [ih]
      tauto

theorem nodup_keys_update (h : opened.keys.Nodup) : (opened.update key f).keys.Nodup := by
  induction opened with
  | nil => simp [keys, update]
  | cons entry opened ih =>
    obtain ⟨k, queue⟩ := entry
    obtain ⟨hk, hrest⟩ := List.nodup_cons.mp h
    rw [update]
    split
    · exact h
    · rename_i hne
      refine List.nodup_cons.mpr ⟨fun hmem => ?_, ih hrest⟩
      rcases mem_keys_update.mp hmem with hkey | hmem
      · exact hne hkey
      · exact hk hmem

end OpenNotes

/-- A note of a key: it has its channel and its pitch. -/
def TickNote.isOf (key : Key) (n : TickNote) : Bool :=
  n.channel = some (key.1 : Int) ∧ n.pitch = key.2

theorem OpenNote.isOf_closed {key key' : Key} (n : OpenNote) (tick : Nat) :
    (n.closed key tick).isOf key' = decide (key = key') := by
  rw [TickNote.isOf, OpenNote.closed, decide_eq_decide, Prod.ext_iff]
  simp

def Strike.opened (s : Strike) : OpenNote := ⟨s.tick, velocityShare s.velocity, s.program⟩

section Zip

variable {α β γ : Type} {as bs : List α} {ts : List β}

theorem zipWith_append_of_le {f : α → β → γ} (h : ts.length ≤ as.length) :
    List.zipWith f (as ++ bs) ts = List.zipWith f as ts := by
  induction ts generalizing as with
  | nil => simp
  | cons t ts ih =>
    cases as with
    | nil => simp at h
    | cons a as => simpa using ih (Nat.le_of_succ_le_succ h)

theorem zipWith_concat (f : α → β → γ) (as : List α) (ts : List β) (t : β) :
    List.zipWith f as (ts ++ [t]) =
      List.zipWith f as ts ++ ((as.drop ts.length).take 1).map (f · t) := by
  induction ts generalizing as with
  | nil => cases as <;> simp
  | cons u ts ih =>
    cases as with
    | nil => simp
    | cons a as => simp [ih]

/-- Elements paired with those of a shorter list, and what is left with a last one. -/
theorem mapIdx_getD {f : α → β → γ} {last : β} (h : ts.length ≤ as.length) :
    as.mapIdx (fun i a => f a (ts[i]?.getD last)) =
      List.zipWith f as ts ++ (as.drop ts.length).map (f · last) := by
  induction as generalizing ts with
  | nil => cases ts <;> simp at h ⊢
  | cons a as ih =>
    cases ts with
    | nil => simpa [List.mapIdx_cons] using @ih [] (Nat.zero_le _)
    | cons t ts => simpa [List.mapIdx_cons] using ih (Nat.le_of_succ_le_succ h)

end Zip

namespace Pairing

variable {key : Key} {p : Pairing} {events : List Event}

/-- The closed notes of a key, the first one first. -/
def closedOf (key : Key) (p : Pairing) : List TickNote := p.closed.reverse.filter (TickNote.isOf key)

theorem queue_release (p : Pairing) (key key' : Key) : (p.release key).opened.queue key' =
    if key = key' then (p.opened.queue key').drop 1 else p.opened.queue key' := by
  rw [release]
  split <;> exact OpenNotes.queue_update key key' _ _

theorem closedOf_release (p : Pairing) (key key' : Key) : (p.release key).closedOf key' =
    p.closedOf key' ++ if key = key' then
      ((p.opened.queue key').take 1).map (·.closed key' p.tick) else [] := by
  rw [release]
  split
  · rename_i hq
    by_cases h : key = key'
    · subst h
      simp [closedOf, hq]
    · simp [closedOf, h]
  · rename_i n queue hq
    by_cases h : key = key'
    · subst h
      simp [closedOf, hq, OpenNote.isOf_closed]
    · simp [closedOf, h, OpenNote.isOf_closed]

theorem tick_release (p : Pairing) (key : Key) : (p.release key).tick = p.tick := by
  rw [release]
  split <;> rfl

theorem nodup_release (key : Key) (h : p.opened.keys.Nodup) :
    (p.release key).opened.keys.Nodup := by
  rw [release]
  split <;> exact OpenNotes.nodup_keys_update h

/-- An event strikes a key, lets go of one or leaves the notes as they are. -/
theorem step_cases (p : Pairing) (e : Event) :
    (∃ k velocity, (∀ key, e.strikes? key = if k = key then some velocity else none) ∧
      (∀ key, e.releases key = false) ∧
      p.step e = { p with tick := p.tick + e.delta }.press k velocity) ∨
    (∃ k, (∀ key, e.strikes? key = none) ∧ (∀ key, e.releases key = decide (k = key)) ∧
      p.step e = { p with tick := p.tick + e.delta }.release k) ∨
    (∀ key, e.strikes? key = none) ∧ (∀ key, e.releases key = false) ∧
      (p.step e).tick = p.tick + e.delta ∧ (p.step e).opened = p.opened ∧
      (p.step e).closed = p.closed := by
  obtain ⟨delta, message⟩ := e
  cases message with
  | noteOn channel pitch velocity =>
    cases velocity with
    | zero =>
      refine .inr (.inl ⟨(channel, pitch), fun key => ?_, fun key => ?_, rfl⟩)
      · simp [Event.strikes?]
      · simp [Event.releases]
    | succ velocity =>
      refine .inl ⟨(channel, pitch), velocity + 1, fun key => ?_, fun key => ?_, rfl⟩
      · simp [Event.strikes?]
      · simp [Event.releases]
  | noteOff channel pitch =>
    exact .inr (.inl ⟨(channel, pitch), fun _ => rfl, fun _ => rfl, rfl⟩)
  | trackName name =>
    refine .inr (.inr ⟨fun _ => rfl, fun _ => rfl, ?_⟩)
    simp only [step]
    split <;> exact ⟨rfl, rfl, rfl⟩
  | _ => exact .inr (.inr ⟨fun _ => rfl, fun _ => rfl, rfl, rfl, rfl⟩)

theorem tick_step (p : Pairing) (e : Event) : (p.step e).tick = p.tick + e.delta := by
  obtain ⟨k, velocity, -, -, hstep⟩ | ⟨k, -, -, hstep⟩ | ⟨-, -, htick, -⟩ := step_cases p e
  · rw [hstep]
    rfl
  · rw [hstep]
    exact tick_release _ k
  · exact htick

theorem nodup_step (e : Event) (h : p.opened.keys.Nodup) : (p.step e).opened.keys.Nodup := by
  obtain ⟨k, velocity, -, -, hstep⟩ | ⟨k, -, -, hstep⟩ | ⟨-, -, -, hopened, -⟩ := step_cases p e
  · rw [hstep]
    exact OpenNotes.nodup_keys_update h
  · rw [hstep]
    exact nodup_release k h
  · rwa [hopened]

/-- A note-on joins the queue of its key behind the others, and a note-off takes off the first. -/
theorem queue_step (p : Pairing) (e : Event) (key : Key) : (p.step e).opened.queue key =
    match e.strikes? key with
    | some velocity => p.opened.queue key ++
        [⟨p.tick + e.delta, velocityShare velocity, p.programs.lookup key.1⟩]
    | none => if e.releases key then (p.opened.queue key).drop 1 else p.opened.queue key := by
  obtain ⟨k, velocity, hs, hr, hstep⟩ | ⟨k, hs, hr, hstep⟩ | ⟨hs, hr, -, hopened, -⟩ :=
    step_cases p e
  · rw [hstep, hs, hr, press, OpenNotes.queue_update]
    by_cases h : k = key
    · simp [h, begun]
    · simp [h]
  · rw [hstep, hs, hr, queue_release]
    simp
  · rw [hopened, hs, hr]
    rfl

/-- A note-off closes the first note of its key. -/
theorem closedOf_step (p : Pairing) (e : Event) (key : Key) : (p.step e).closedOf key =
    p.closedOf key ++ if e.releases key then
      ((p.opened.queue key).take 1).map (·.closed key (p.tick + e.delta : Nat)) else [] := by
  obtain ⟨k, velocity, -, hr, hstep⟩ | ⟨k, -, hr, hstep⟩ | ⟨-, hr, -, -, hclosed⟩ := step_cases p e
  · rw [hstep, hr, if_neg Bool.false_ne_true, List.append_nil]
    rfl
  · rw [hstep, hr, closedOf_release]
    simp [closedOf]
  · rw [closedOf, hclosed, hr, if_neg Bool.false_ne_true, List.append_nil]
    rfl

/-- What is known part way through a track, by the events so far. The open notes of a key are its
note-ons behind those that were closed. -/
structure Follows (events : List Event) (p : Pairing) : Prop where
  tick_eq : p.tick = ticksOf events
  program_eq : ∀ channel, p.programs.lookup channel = programOn channel events
  nodup : p.opened.keys.Nodup
  queue_eq : ∀ key, p.opened.queue key =
    ((strikes key events).drop (closings key events).length).map Strike.opened
  closedOf_eq : ∀ key, p.closedOf key =
    List.zipWith (Strike.held · key ·) (strikes key events) (closings key events)

theorem follows_nil : Follows [] {} :=
  ⟨rfl, fun _ => rfl, .nil, fun _ => rfl, fun _ => rfl⟩

theorem lookup_programsAfter (programs : List (Nat × Nat)) (e : Event) (channel : Nat) :
    (e.programsAfter programs).lookup channel = (e.program? channel).or (programs.lookup channel) := by
  obtain ⟨delta, message⟩ := e
  cases message with
  | program c number =>
    simp only [Event.programsAfter, Event.program?, List.lookup_cons]
    by_cases h : c = channel
    · simp [h]
    · simp [h, beq_eq_false_iff_ne.mpr (Ne.symm h)]
  | _ => rfl

theorem Follows.step (h : Follows events p) (e : Event) : Follows (events ++ [e]) (p.step e) := by
  have htick : p.tick + e.delta = ticksOf (events ++ [e]) := by rw [ticksOf_concat, h.tick_eq]
  refine ⟨(tick_step p e).trans htick, fun channel => ?_, nodup_step e h.nodup, fun key => ?_,
    fun key => ?_⟩
  · rw [programs_step, lookup_programsAfter, programOn_concat, h.program_eq]
  · have hsum := sounding_add_closings key events
    have hle : (closings key events).length ≤ (strikes key events).length := by omega
    rw [queue_step, strikes_concat, closings_concat, htick, h.program_eq, h.queue_eq]
    cases hs : e.strikes? key with
    | some velocity =>
      rw [Event.releases_of_strikes hs]
      simp [List.drop_append_of_le_length hle, Strike.opened]
    | none =>
      cases hr : e.releases key with
      | false => simp
      | true =>
        by_cases hpos : 0 < sounding key events
        · simp [hpos, List.map_drop]
        · have hend : (strikes key events).length ≤ (closings key events).length := by omega
          simp [hpos, List.drop_eq_nil_of_le hend]
  · have hsum := sounding_add_closings key events
    have hle : (closings key events).length ≤ (strikes key events).length := by omega
    rw [closedOf_step, strikes_concat, closings_concat, htick, h.closedOf_eq, h.queue_eq]
    cases hs : e.strikes? key with
    | some velocity =>
      rw [Event.releases_of_strikes hs]
      simp [zipWith_append_of_le hle]
    | none =>
      cases hr : e.releases key with
      | false => simp
      | true =>
        by_cases hpos : 0 < sounding key events
        · rw [if_pos rfl, if_pos ⟨rfl, hpos⟩, Option.map_none, Option.toList_none, List.append_nil,
            zipWith_concat, ← List.map_take, List.map_map]
          rfl
        · have hend : (strikes key events).length ≤ (closings key events).length := by omega
          simp [hpos, List.drop_eq_nil_of_le hend]

theorem follows_pairing (events : List Event) : Follows events (pairing events) := by
  induction events using List.reverseRecOn with
  | nil => exact follows_nil
  | append_singleton events e ih =>
    rw [pairing, List.foldl_concat]
    exact ih.step e

/-- Of the open notes, those of a key are its queue. -/
theorem filter_stillOpen (h : p.opened.keys.Nodup) (key : Key) :
    p.stillOpen.filter (TickNote.isOf key) = (p.opened.queue key).map (·.closed key p.tick) := by
  have hall : ∀ (k : Key) (queue : List OpenNote),
      (queue.map (·.closed k p.tick)).filter (TickNote.isOf key) =
        if k = key then queue.map (·.closed key p.tick) else [] := by
    intro k queue
    by_cases hk : k = key
    · subst hk
      simp [List.filter_map, Function.comp_def, OpenNote.isOf_closed]
    · simp [List.filter_map, Function.comp_def, OpenNote.isOf_closed, hk]
  rw [stillOpen]
  generalize p.opened = opened at h
  induction opened with
  | nil => rfl
  | cons entry opened ih =>
    obtain ⟨k, queue⟩ := entry
    obtain ⟨hk, hrest⟩ := List.nodup_cons.mp h
    rw [List.flatMap_cons, List.filter_append, hall, ih hrest, OpenNotes.queue_cons]
    split
    · rename_i hkey
      rw [OpenNotes.queue_eq_nil (hkey ▸ hk), List.map_nil, List.append_nil]
    · rfl

theorem Follows.filter_notes (h : Follows events p) (key : Key) :
    p.notes.filter (TickNote.isOf key) = turns key events := by
  have hsum := sounding_add_closings key events
  have hclosed := h.closedOf_eq key
  rw [closedOf] at hclosed
  rw [notes, List.filter_append, hclosed, filter_stillOpen h.nodup, h.queue_eq, turns,
    mapIdx_getD (by omega), List.map_map, h.tick_eq]
  rfl

end Pairing

theorem InTime.getD_le {last i j : Nat} {ticks : List Nat} (h : InTime last ticks) (hij : i ≤ j) :
    ticks[i]?.getD last ≤ ticks[j]?.getD last := by
  cases hj : ticks[j]? with
  | none =>
    cases hi : ticks[i]? with
    | none => exact le_rfl
    | some tick => exact h.le_last tick (List.mem_of_getElem? hi)
  | some tick =>
    obtain ⟨hlt, rfl⟩ := List.getElem?_eq_some_iff.mp hj
    rw [List.getElem?_eq_getElem (hij.trans_lt hlt)]
    rcases hij.eq_or_lt with rfl | hlt'
    · exact le_rfl
    · exact List.pairwise_iff_getElem.mp h.sorted i j _ hlt hlt'

theorem strikes_le {key : Key} {events : List Event} {i j : Nat} (hij : i < j) (hj : j < (strikes key events).length) :
    (strikes key events)[i].tick ≤ (strikes key events)[j].tick := by
  have h := List.pairwise_map.mp (inTime_strikes key events).sorted
  exact List.pairwise_iff_getElem.mp h i j _ hj hij

/-- The notes of a key begin and end in the order of its note-ons. -/
theorem pairwise_turns (key : Key) (events : List Event) : (turns key events).Pairwise fun a b =>
    a.pitch = b.pitch ∧ a.start ≤ b.start ∧ a.start + a.duration ≤ b.start + b.duration := by
  refine List.pairwise_iff_getElem.mpr fun i j hi hj hij => ?_
  rw [turns, List.length_mapIdx] at hi hj
  have hstart := strikes_le hij hj
  have hstop := (inTime_closings key events).getD_le hij.le
  simp only [turns, List.getElem_mapIdx, Strike.held]
  exact ⟨trivial, by omega, by omega⟩

section Sorting

variable {a b c : TickNote}

/-- Order by start, then by pitch. -/
def TickNote.NotAfter (a b : TickNote) : Prop :=
  a.start < b.start ∨ a.start = b.start ∧ a.pitch ≤ b.pitch

theorem TickNote.not_precedes_iff : (!b.precedes a) = true ↔ a.NotAfter b := by
  simp only [precedes, NotAfter, Bool.not_eq_true', Bool.or_eq_false_iff, Bool.and_eq_false_iff,
    decide_eq_false_iff_not]
  omega

theorem TickNote.NotAfter.trans (hab : a.NotAfter b) (hbc : b.NotAfter c) : a.NotAfter c := by
  simp only [NotAfter] at *
  omega

theorem TickNote.notAfter_total (a b : TickNote) : a.NotAfter b ∨ b.NotAfter a := by
  simp only [NotAfter]
  omega

end Sorting

/-- The notes of a track, by its events: one for each note-on, those of a key in turn. -/
structure PairedBy (events : List Event) (notes : List TickNote) : Prop where
  length_eq : notes.length = events.countP Event.isPress
  keyed : ∀ n ∈ notes, ∃ key, n.isOf key
  turns_eq : ∀ key, notes.filter (TickNote.isOf key) = turns key events
  ends_inOrder : ∀ key, (notes.filter (TickNote.isOf key)).Pairwise fun a b =>
    a.start + a.duration ≤ b.start + b.duration
  sorted : notes.Pairwise TickNote.NotAfter

theorem mem_pressedFrom {programs : List (Nat × Nat)} {events : List Event} {l : Label}
    (h : l ∈ pressedFrom programs events) :
    ∃ channel pitch : Nat, l.channel = some (channel : Int) ∧ l.pitch = pitch := by
  induction events generalizing programs with
  | nil => cases h
  | cons e events ih =>
    rcases List.mem_append.mp h with hmem | hmem
    · obtain ⟨delta, message⟩ := e
      cases message with
      | noteOn channel pitch velocity =>
        obtain ⟨-, rfl⟩ : 0 < velocity ∧ l = _ := by simpa [Event.pressed] using hmem
        exact ⟨channel, pitch, rfl, rfl⟩
      | _ => cases hmem
    · exact ih hmem

/-- A track has one note for each note-on, closed in turn. -/
theorem TickTrack.ofEvents_paired (index : Nat) (events : List Event) :
    PairedBy events (TickTrack.ofEvents index events).notes := by
  have hlabels := map_label_ofEvents index events
  have hperm := List.mergeSort_perm (pairing events).notes fun a b => !b.precedes a
  have htrans : ∀ a b c : TickNote, !b.precedes a → !c.precedes b → !c.precedes a := by
    intro a b c hab hbc
    rw [TickNote.not_precedes_iff] at *
    exact hab.trans hbc
  have htotal : ∀ a b : TickNote, !b.precedes a || !a.precedes b := by
    intro a b
    rw [Bool.or_eq_true, TickNote.not_precedes_iff, TickNote.not_precedes_iff]
    exact TickNote.notAfter_total a b
  have hturns : ∀ key, (TickTrack.ofEvents index events).notes.filter (TickNote.isOf key) =
      turns key events := by
    intro key
    have hfilter := (Pairing.follows_pairing events).filter_notes key
    have hsorted : (turns key events).Pairwise fun a b => !b.precedes a := by
      refine (pairwise_turns key events).imp fun h => TickNote.not_precedes_iff.mpr ?_
      simp only [TickNote.NotAfter]
      omega
    -- The sort is stable, so the notes of a key keep their order.
    have hsub := (List.sublist_mergeSort htrans htotal hsorted (hfilter ▸ List.filter_sublist)).filter
      (TickNote.isOf key)
    have hown : (turns key events).filter (TickNote.isOf key) = turns key events := by
      rw [← hfilter, List.filter_filter]
      simp only [Bool.and_self]
    rw [hown] at hsub
    refine (hsub.eq_of_length ?_).symm
    rw [(hperm.filter _).length_eq, hfilter]
  refine ⟨?_, fun n hn => ?_, hturns, fun key => ?_, ?_⟩
  · rw [← length_pressed, ← hlabels.length_eq, List.length_map]
  · obtain ⟨channel, pitch, hchannel, hpitch⟩ :=
      mem_pressedFrom (hlabels.mem_iff.mp (List.mem_map_of_mem hn))
    exact ⟨(channel, pitch), decide_eq_true ⟨hchannel, hpitch⟩⟩
  · rw [hturns]
    exact (pairwise_turns key events).imp fun h => h.2.2
  · exact (List.pairwise_mergeSort htrans htotal _).imp TickNote.not_precedes_iff.mp

/-- A key struck a second time while it sounds, and let go three times. -/
example : (turns (0, 60) [⟨0, .noteOn 0 60 100⟩, ⟨1, .noteOn 0 60 90⟩, ⟨1, .noteOff 0 60⟩,
    ⟨0, .program 0 5⟩, ⟨2, .noteOn 0 60 0⟩, ⟨3, .noteOff 0 60⟩, ⟨1, .noteOn 0 60 80⟩]).map
    (fun n => (n.start, n.duration, n.program)) = [(0, 2, none), (1, 3, none), (8, 1, some 5)] := by
  decide

end Midi
end PatternLoom
