import PatternLoom.Midi.GivenOptions
import PatternLoom.Proofs.Midi.Containment

/-! The failures that an import comes to. Apart from refusals they are those of work with numbers,
of key signatures, and of options of a wrong kind. -/

namespace PatternLoom
namespace Midi

/-- An import is refused. -/
def Refusing (e : Failure) : Prop := ∃ reason, e = .refusedImport reason

/-- A failure of a step of an import. -/
inductive Innate : Failure → Prop
  | refused (reason : ImportRefusal) : Innate (.refusedImport reason)
  | divisionByZero : Innate .divisionByZero
  | notANumber : Innate .notANumber
  | unbounded : Innate .unbounded
  | beyondRange : Innate .beyondRange
  | keySignature : Innate .keySignature
  | wrongKind : Innate .wrongKind

/-- A step whose failures are all of one sort. -/
def FailsAs (P : Failure → Prop) {α : Type} (x : Result α) : Prop := ∀ e, x = .error e → P e

namespace FailsAs

variable {P Q : Failure → Prop} {α β : Type} {x : Result α}

theorem ok (a : α) : FailsAs P (.ok a : Result α) := by
  intro e he
  cases he

theorem pure (a : α) : FailsAs P (Pure.pure a : Result α) := ok a

theorem error {e : Failure} (h : P e) : FailsAs P (.error e : Result α) := by
  intro e' he
  rwa [← Except.error.inj he]

theorem imp (hx : FailsAs P x) (h : ∀ e, P e → Q e) : FailsAs Q x := fun e he => h e (hx e he)

theorem bind {f : α → Result β} (hx : FailsAs P x) (hf : ∀ a, FailsAs P (f a)) :
    FailsAs P (x >>= f) := by
  intro e he
  rcases bind_eq_error.mp he with h | ⟨a, _, h⟩
  · exact hx e h
  · exact hf a e h

theorem mapM {f : α → Result β} (hf : ∀ a, FailsAs P (f a)) (xs : List α) :
    FailsAs P (xs.mapM f) := by
  intro e he
  obtain ⟨_, a, _, _, _, h⟩ := mapM_eq_error.mp he
  exact hf a e h

theorem foldlM {f : β → α → Result β} (hf : ∀ b a, FailsAs P (f b a)) (xs : List α) (b : β) :
    FailsAs P (xs.foldlM f b) := by
  induction xs generalizing b with
  | nil => exact pure b
  | cons a xs ih =>
    rw [List.foldlM_cons]
    exact (hf b a).bind ih

theorem mapError {f : Failure → Failure} (hx : FailsAs P x) (h : ∀ e, P e → Q (f e)) :
    FailsAs Q (x.mapError f) := by
  cases x with
  | ok a => exact ok a
  | error e => exact error (h e (hx e rfl))

theorem optional {f : α → Result β} (hf : ∀ a, FailsAs P (f a)) (given : Option α) :
    FailsAs P (given.mapM f) := by
  cases given with
  | none => exact pure none
  | some a =>
    rw [Option.mapM_some]
    exact (hf a).bind fun b => pure (some b)

end FailsAs

section Numbers

open Binary64

theorem innate_inRange (x : Binary64) : FailsAs Innate x.inRange := by
  cases x with
  | infinity _ => exact .error .beyondRange
  | _ => exact .ok _

theorem innate_ofInt (n : Int) : FailsAs Innate (ofInt n) := innate_inRange _

theorem innate_ofQuotient (m n : Int) : FailsAs Innate (ofQuotient m n) := by
  unfold ofQuotient
  split
  · exact .error .divisionByZero
  · exact innate_inRange _

theorem innate_quotient (x y : Binary64) : FailsAs Innate (x.quotient y) := by
  unfold quotient
  split
  · exact .error .divisionByZero
  · exact .ok _

theorem innate_floor (x : Binary64) : FailsAs Innate x.floor := by
  cases x with
  | nan => exact .error .notANumber
  | infinity _ => exact .error .unbounded
  | finite _ _ _ => exact .ok _

theorem innate_ceil (x : Binary64) : FailsAs Innate x.ceil := by
  cases x with
  | nan => exact .error .notANumber
  | infinity _ => exact .error .unbounded
  | finite _ _ _ => exact .ok _

theorem innate_toReal (q : Quantity) : FailsAs Innate q.toReal := by
  cases q with
  | whole n => exact innate_ofInt n
  | real x => exact .ok x

theorem innate_mul (q r : Quantity) : FailsAs Innate (q.mul r) := by
  have hreal : FailsAs Innate (do return Quantity.real ((← q.toReal) * (← r.toReal))) :=
    (innate_toReal q).bind fun _ => (innate_toReal r).bind fun _ => .pure _
  cases q with
  | whole n =>
    cases r with
    | whole m => exact .ok _
    | real y => exact hreal
  | real x => exact hreal

theorem innate_gridStep (division : Quantity) : FailsAs Innate (gridStep division) := by
  unfold gridStep Quantity.reciprocal
  split
  · exact innate_ofQuotient 1 _
  · exact innate_quotient 1 _

theorem innate_barCount (total : Binary64) (beatsPerBar : Quantity) :
    FailsAs Innate (barCount total beatsPerBar) := by
  have hdivides : FailsAs Innate (beatsPerBar.divides total) :=
    (innate_toReal beatsPerBar).bind fun _ => innate_quotient total _
  exact hdivides.bind fun x => (innate_ceil x).bind fun _ => .pure _

end Numbers

section Reading

theorem innate_read (data : List UInt8) : FailsAs Innate (Score.read data) := by
  have hformat : FailsAs Innate (formatNumber data) := by
    unfold formatNumber
    split
    · exact .error (.refused _)
    · split
      · exact .error (.refused _)
      · exact .ok _
  have hcheck : ∀ format, FailsAs Innate (checkFormat format) := by
    intro format
    unfold checkFormat
    split
    · exact .error (.refused _)
    · exact .ok _
  have hdecode : FailsAs Innate (File.decode data) := by
    intro e he
    rcases File.decode_error he with rfl | rfl
    · exact .refused _
    · exact .keySignature
  have htempo : ∀ microseconds, FailsAs Innate (beatsPerMinute microseconds) := fun microseconds =>
    (innate_ofInt microseconds).bind fun x => (innate_quotient _ x).bind fun _ => .pure _
  have htempos : ∀ messages, FailsAs Innate (tempoEvents messages) := by
    intro messages
    induction messages with
    | nil => exact .ok []
    | cons entry messages ih =>
      obtain ⟨tick, message⟩ := entry
      cases message with
      | tempo microseconds => exact (htempo microseconds).bind fun _ => ih.bind fun _ => .pure _
      | _ => exact ih
  have hscore : ∀ format file, FailsAs Innate (Score.ofFile format file) :=
    fun format file => (htempos _).bind fun _ => .pure _
  exact hformat.bind fun format => (hcheck format).bind fun _ => hdecode.bind (hscore format)

end Reading

section Converting

theorem Refusing.innate {e : Failure} (h : Refusing e) : Innate e := by
  obtain ⟨reason, rfl⟩ := h
  exact .refused reason

theorem refusing_checkTicks (score : Score) : FailsAs Refusing score.checkTicks := by
  unfold Score.checkTicks
  split
  · exact .error ⟨_, rfl⟩
  · exact .ok ()

theorem refusing_checkNotes (score : Score) (options : ImportOptions) (limit : String) :
    FailsAs Refusing (score.checkNotes options limit) := by
  unfold Score.checkNotes
  dsimp only
  split
  · exact .error ⟨_, rfl⟩
  · exact .ok ()

theorem innate_gather (score : Score) (options : ImportOptions) (minDuration : Binary64) :
    FailsAs Innate (score.gather options minDuration) := by
  have hnote : ∀ n : TickNote, FailsAs Innate (n.inBeats score.ticksPerBeat minDuration) := fun n =>
    (innate_ofQuotient n.start _).bind fun _ =>
      (innate_ofQuotient n.duration _).bind fun _ => .pure _
  have htrack : ∀ t : TickTrack, FailsAs Innate (t.inBeats score.ticksPerBeat minDuration) :=
    fun t => (FailsAs.mapM hnote t.notes).bind fun _ => .pure _
  refine FailsAs.foldlM (fun g t => ?_) _ _
  unfold Gathered.addTrack
  split
  · exact .ok _
  · exact (htrack t).bind fun _ => .pure _

theorem innate_inBeats (score : Score) (filename : String) (options : ImportOptions) :
    FailsAs Innate (score.inBeats filename options) := by
  have hchecked : ∀ g : Gathered, FailsAs Innate g.checkTracks := by
    intro g
    unfold Gathered.checkTracks
    split
    · exact .error (.refused _)
    · exact .ok ()
  have hmeter : FailsAs Innate score.beatsPerBar :=
    (innate_ofQuotient _ _).bind fun _ => .pure _
  have hticks := (refusing_checkTicks score).imp fun _ => Refusing.innate
  have hnotes : ∀ limit, FailsAs Innate (score.checkNotes options limit) := fun limit =>
    (refusing_checkNotes score options limit).imp fun _ => Refusing.innate
  exact hticks.bind fun _ => (hnotes _).bind fun _ => hmeter.bind fun beatsPerBar =>
    (innate_gridStep options.division).bind fun step =>
      (innate_gather score options step).bind fun g => (hchecked g).bind fun _ =>
        (innate_barCount _ beatsPerBar).bind fun _ => .pure _

theorem innate_onGrid (beats : BeatScore) (options : ImportOptions) :
    FailsAs Innate (beats.onGrid options) := by
  have hsnap : ∀ x step : Binary64, FailsAs Innate (snap x step) := fun x step =>
    (innate_quotient x step).bind fun q => (innate_floor _).bind fun k =>
      (innate_ofInt k).bind fun _ => .pure _
  have hnote : ∀ step (n : BeatNote), FailsAs Innate (n.onGrid step) := fun step n =>
    (hsnap n.start step).bind fun _ => (hsnap n.stop step).bind fun _ => .pure _
  have htrack : ∀ step (t : BeatTrack), FailsAs Innate (t.onGrid step) := fun step t =>
    ((FailsAs.mapM (hnote step) t.notes).bind fun _ => .pure _).bind fun _ => .pure _
  exact (innate_gridStep options.division).bind fun step =>
    (FailsAs.mapM (htrack step) beats.tracks).bind fun _ =>
      (innate_barCount _ _).bind fun _ => .pure _

theorem innate_program (score : BeatScore) (tracks : List SoundTrack) (filename : String)
    (options : ImportOptions) : FailsAs Innate (score.program tracks filename options) := by
  have hwhole : ∀ q, FailsAs Innate (wholeSteps q) := by
    intro q
    cases q with
    | whole n => exact .ok n
    | real x => exact innate_ceil _
  have htotal : ∀ division, FailsAs Innate (totalSteps score.bars score.beatsPerBar division) :=
    fun division => (innate_mul _ _).bind fun q => (innate_mul q division).bind fun r =>
      (hwhole r).bind fun _ => .pure _
  have hindex : ∀ total step start, FailsAs Innate (stepIndex total step start) :=
    fun total step start => (innate_quotient start step).bind fun q =>
      (innate_floor _).bind fun _ => .pure _
  have hcells : ∀ t, FailsAs Innate (stepCells t score.bars score.beatsPerBar options) := fun t =>
    (innate_gridStep _).bind fun step => (htotal _).bind fun total =>
      (FailsAs.mapM (fun n => (hindex total step n.start).bind fun _ => .pure _) t.notes).bind
        fun _ => .pure _
  have hgain : ∀ (s : SoundTrack) useVelocity, FailsAs Innate (s.gain useVelocity) := by
    intro s useVelocity
    cases useVelocity with
    | false => exact .ok _
    | true =>
      rw [SoundTrack.gain, if_pos rfl]
      exact (innate_ofInt _).bind fun _ => .pure _
  have hline : ∀ s : SoundTrack, FailsAs Innate (s.line score.bars score.beatsPerBar options) :=
    fun s => ((hcells s.track).bind fun _ => .pure _).bind fun _ =>
      (hgain s _).bind fun _ => .pure _
  exact (FailsAs.mapM hline tracks).bind fun _ => .pure _

theorem innate_convert (score : Score) (filename : String) (options : ImportOptions) :
    FailsAs Innate (score.convert filename options) :=
  (innate_inBeats score filename options).bind fun _ =>
    (innate_onGrid _ options).bind fun _ =>
      (innate_program _ _ filename options).bind fun _ => .pure _

end Converting

section Options

/-- A refusal, or an option of a wrong kind. -/
def Fussy (e : Failure) : Prop := Refusing e ∨ e = .wrongKind

variable (given : GivenOptions) (score : Score)

theorem fussy_optionsFor : FailsAs Fussy (given.optionsFor score) := by
  have hticks : FailsAs Fussy score.checkTicks := (refusing_checkTicks score).imp fun _ => .inl
  have hnotes : ∀ options limit, FailsAs Fussy
      ((score.checkNotes options limit.toText).mapError (GivenOptions.naming limit)) := by
    intro options limit
    refine (refusing_checkNotes score options limit.toText).mapError fun e he => .inl ?_
    unfold GivenOptions.naming
    split
    · exact he
    · exact ⟨_, rfl⟩
  have hcount : ∀ value : Value, FailsAs Fussy value.count := by
    intro value
    unfold Value.count
    split
    · exact .ok _
    · exact .ok _
    · split
      · exact .error (.inr rfl)
      · exact .ok _
    · exact .error (.inr rfl)
  have hquantity : ∀ value : Value, FailsAs Fussy value.quantity := by
    intro value
    unfold Value.quantity
    split
    · exact .ok _
    · exact .ok _
    · exact .ok _
    · exact .error (.inr rfl)
  have hsteps : FailsAs Fussy given.stepOptions :=
    (FailsAs.optional hquantity given.division).bind fun _ => .pure _
  exact hticks.bind fun _ => (FailsAs.optional hcount given.maxTracks).bind fun _ =>
    (hquantity _).bind fun _ => (hnotes _ _).bind fun _ => hsteps.bind fun _ => .pure _

theorem innate_optionsFor : FailsAs Innate (given.optionsFor score) := by
  refine (fussy_optionsFor given score).imp fun e he => ?_
  rcases he with he | rfl
  · exact he.innate
  · exact .wrongKind

/-- A file that can be imported with the options that are given for it: none of them is of a wrong
kind where the import makes use of it, and no time gets out of range. -/
def ImportableWith (data : List UInt8) (filename : String) (given : GivenOptions) : Prop :=
  ReadsAs data fun score => given.optionsFor score ≠ .error .wrongKind ∧
    ∀ options, given.optionsFor score = .ok options → score.Converts filename options

theorem not_escapes_optionsFor :
    ¬ Escapes (given.optionsFor score) ↔ given.optionsFor score ≠ .error .wrongKind := by
  cases h : given.optionsFor score with
  | ok options => exact iff_of_true (not_escapes_ok options) nofun
  | error e =>
    rw [escapes_error]
    rcases fussy_optionsFor given score e h with ⟨reason, rfl⟩ | rfl
    · exact iff_of_true (fun hesc => hesc.2 reason rfl) nofun
    · exact iff_of_false (not_not_intro ⟨rfl, fun _ => nofun⟩) (not_not_intro rfl)

theorem not_escapes_given (data : List UInt8) (filename : String) :
    ¬ Escapes (do
      let score ← Score.read data
      score.convert filename (← given.optionsFor score)) ↔ ImportableWith data filename given := by
  refine not_escapes_read fun score hm => ?_
  rw [not_escapes_bind, not_escapes_optionsFor]
  exact and_congr_right fun _ => forall₂_congr fun options _ =>
    not_escapes_convert_iff hm filename options

end Options

end Midi
end PatternLoom
