import PatternLoom.Proofs.Midi.Measures

/-! When the cells and the gains of a score on the grid can be worked out. Every member of the
stack needs the number of steps in the piece; without it the first one fails. -/

namespace PatternLoom
namespace Midi

section Cells

variable {step : Binary64} {options : ImportOptions}

/-- The number of steps in a piece is in range. -/
def StepsInRange (bars : Int) (beatsPerBar division : Quantity) : Prop :=
  ∃ steps, (do (← (Quantity.whole bars).mul beatsPerBar).mul division) = .ok steps ∧
    ∀ x, steps = .real x → x.isInfinite = false

/-- The notes of a track fall on steps, and their number can be divided by. -/
def BeatTrack.Measurable (t : BeatTrack) (options : ImportOptions) (step : Binary64) : Prop :=
  (∀ n ∈ t.notes, CountsIn n.start step) ∧
    (options.velocityGain → t.notes.length * unitsPerOne < overflow)

/-- The cells and the gains of a score on the grid can be worked out. -/
def BeatScore.Playable (score : BeatScore) (options : ImportOptions) (step : Binary64) : Prop :=
  StepsInRange score.bars score.beatsPerBar options.division.atLeastOne ∧
    ∀ total, totalSteps score.bars score.beatsPerBar options.division.atLeastOne = .ok total →
      ∀ t ∈ score.tracks, t.Measurable options step

theorem settles_toReal (q : Quantity) : Settles q.toReal (∃ x, q.toReal = .ok x) := by
  cases q with
  | whole n => exact (settles_ofInt n).congr (settles_ofInt n).exists_ok_iff.symm
  | real x => exact .inl ⟨⟨x, rfl⟩, x, rfl⟩

theorem settles_mul (q r : Quantity) : Settles (q.mul r) (∃ x, q.mul r = .ok x) := by
  have hreal : ∃ p, Settles (do return Quantity.real ((← q.toReal) * (← r.toReal))) p :=
    ⟨_, (settles_toReal q).andThen fun _ _ => (settles_toReal r).followed fun _ _ => ⟨_, rfl⟩⟩
  have hsome : ∃ p, Settles (q.mul r) p := by
    cases q with
    | whole n =>
      cases r with
      | whole m => exact ⟨_, Settles.ok _⟩
      | real y => exact hreal
    | real x =>
      cases r with
      | whole m => exact hreal
      | real y => exact hreal
  obtain ⟨p, hp⟩ := hsome
  exact hp.congr hp.exists_ok_iff.symm

theorem not_escapes_wholeSteps (steps : Quantity) :
    ¬ Escapes (wholeSteps steps) ↔ ∀ x, steps = .real x → x.isInfinite = false := by
  cases steps with
  | whole n =>
    refine iff_of_true (not_escapes_ok n) fun x hx => ?_
    cases hx
  | real x =>
    rw [wholeSteps, not_escapes_ceil, Binary64.isInfinite_roundTo]
    exact ⟨fun h y hy => Quantity.real.inj hy ▸ h, fun h => h x rfl⟩

theorem not_escapes_totalSteps (bars : Int) (beatsPerBar division : Quantity) :
    ¬ Escapes (totalSteps bars beatsPerBar division) ↔
      StepsInRange bars beatsPerBar division := by
  have hassoc : totalSteps bars beatsPerBar division =
      (do (← (Quantity.whole bars).mul beatsPerBar).mul division) >>= fun steps => do
        return (max 1 (← wholeSteps steps)).toNat := by
    rw [totalSteps, bind_assoc]
  have hproduct := (settles_mul (.whole bars) beatsPerBar).bind fun x _ => settles_mul x division
  have hsteps : ∀ steps, ¬ Escapes (do return (max 1 (← wholeSteps steps)).toNat : Result Nat) ↔
      ∀ x, steps = .real x → x.isInfinite = false := fun steps =>
    (not_escapes_followed fun _ _ => not_escapes_ok _).trans (not_escapes_wholeSteps steps)
  rw [hassoc, not_escapes_bind, hproduct.not_escapes_iff, ← hproduct.exists_ok_iff]
  simp only [hsteps]
  constructor
  · rintro ⟨⟨steps, hok⟩, hall⟩
    exact ⟨steps, hok, hall steps hok⟩
  · rintro ⟨steps, hok, hx⟩
    refine ⟨⟨steps, hok⟩, fun steps' hok' => ?_⟩
    obtain rfl := Except.ok.inj (hok.symm.trans hok')
    exact hx

theorem gridStep_atLeastOne (division : Quantity) :
    gridStep division.atLeastOne = gridStep division := by
  have hidem : division.atLeastOne.atLeastOne = division.atLeastOne := by
    cases division with
    | whole n =>
      simp only [Quantity.atLeastOne]
      congr 1
      omega
    | real x =>
      by_cases h : 1 < x
      · have habove : (Quantity.real x).atLeastOne = .real x := by
          rw [Quantity.atLeastOne, if_pos h]
        rw [habove, habove]
      · have hbelow : (Quantity.real x).atLeastOne = .whole 1 := by
          rw [Quantity.atLeastOne, if_neg h]
        rw [hbelow]
        rfl
  rw [gridStep, gridStep, hidem]

theorem settles_gain (s : SoundTrack) (useVelocity : Bool) :
    Settles (s.gain useVelocity)
      (useVelocity → s.track.notes.length * unitsPerOne < overflow) := by
  cases useVelocity with
  | false => exact (Settles.ok _).congr (iff_of_true trivial nofun)
  | true =>
    have hcount : Settles (Binary64.ofInt (max 1 (s.track.notes.length : Int)))
        (s.track.notes.length * unitsPerOne < overflow) := by
      have hmax : (max 1 (s.track.notes.length : Int)).natAbs = max 1 s.track.notes.length := by
        omega
      have hone : 1 * unitsPerOne < overflow :=
        (Nat.mul_le_mul_right _ (show 1 ≤ 2 ^ 110 by decide)).trans_lt two_pow_mul_unitsPerOne_lt
      refine (settles_ofInt _).congr ?_
      rw [hmax]
      rcases max_choice 1 s.track.notes.length with h | h
      · rw [h]
        exact iff_of_true hone ((Nat.mul_le_mul_right _ (max_eq_left_iff.mp h)).trans_lt hone)
      · rw [h]
    rw [SoundTrack.gain, if_pos rfl, forall_prop_of_true rfl]
    exact hcount.followed fun _ _ => ⟨_, rfl⟩

theorem settles_stepTokens {t : BeatTrack} {bars : Int} {beatsPerBar : Quantity} {total : Nat}
    (hstep : gridStep options.division = .ok step) (hs : step.isFinite)
    (ht : totalSteps bars beatsPerBar options.division.atLeastOne = .ok total)
    (hn : ∀ n ∈ t.notes, n.start.isNan = false) :
    Settles (stepTokens t bars beatsPerBar options) (∀ n ∈ t.notes, CountsIn n.start step) := by
  have hstep' : gridStep options.division.atLeastOne = .ok step := by
    rw [gridStep_atLeastOne, hstep]
  have honsets : Settles (t.notes.mapM fun n => do
      return (← stepIndex total step n.start, n.pitch)) (∀ n ∈ t.notes, CountsIn n.start step) :=
    Settles.mapM fun n hmem => (settles_stepIndex total (hn n hmem) hs).followed fun _ _ => ⟨_, rfl⟩
  have hcells : Settles (stepCells t bars beatsPerBar options)
      (∀ n ∈ t.notes, CountsIn n.start step) := by
    rw [stepCells, hstep', ht]
    exact honsets.followed fun _ _ => ⟨_, rfl⟩
  exact hcells.followed fun _ _ => ⟨_, rfl⟩

theorem settles_line {s : SoundTrack} {bars : Int} {beatsPerBar : Quantity} {total : Nat}
    (hstep : gridStep options.division = .ok step) (hs : step.isFinite)
    (ht : totalSteps bars beatsPerBar options.division.atLeastOne = .ok total)
    (hn : ∀ n ∈ s.track.notes, n.start.isNan = false) :
    Settles (s.line bars beatsPerBar options) (s.track.Measurable options step) :=
  (settles_stepTokens hstep hs ht hn).andThen fun _ _ =>
    (settles_gain s options.velocityGain).followed fun _ _ => ⟨_, rfl⟩

/-- Without a number of steps no member of the stack can be worked out. -/
theorem line_eq_error {bars : Int} {beatsPerBar : Quantity} {e : Failure}
    (hstep : gridStep options.division = .ok step)
    (ht : totalSteps bars beatsPerBar options.division.atLeastOne = .error e) (s : SoundTrack) :
    s.line bars beatsPerBar options = .error e := by
  have hstep' : gridStep options.division.atLeastOne = .ok step := by
    rw [gridStep_atLeastOne, hstep]
  have hcells : stepCells s.track bars beatsPerBar options = .error e := by
    rw [stepCells, hstep', ht]
    rfl
  have htokens : stepTokens s.track bars beatsPerBar options = .error e := by
    rw [stepTokens, hcells]
    rfl
  rw [SoundTrack.line, htokens]
  rfl

theorem not_escapes_program {score : BeatScore} {filename : String}
    (hstep : gridStep options.division = .ok step) (hs : step.isFinite)
    (hn : ∀ t ∈ score.tracks, ∀ n ∈ t.notes, n.start.isNan = false) (hne : score.tracks ≠ []) :
    ¬ Escapes (score.program (score.tracks.map BeatTrack.withSound) filename options) ↔
      score.Playable options step := by
  rw [BeatScore.program]
  refine (not_escapes_followed fun _ _ => not_escapes_ok _).trans ?_
  rw [BeatScore.Playable, ← not_escapes_totalSteps]
  cases ht : totalSteps score.bars score.beatsPerBar options.division.atLeastOne with
  | error e =>
    obtain ⟨t, ts, htracks⟩ := List.exists_cons_of_ne_nil hne
    have hmembers : (score.tracks.map BeatTrack.withSound).mapM
        (·.line score.bars score.beatsPerBar options) = .error e := by
      rw [htracks, List.map_cons, List.mapM_cons, line_eq_error hstep ht]
      rfl
    rw [hmembers, escapes_error, escapes_error]
    exact ⟨fun h => ⟨h, nofun⟩, fun h => h.1⟩
  | ok total =>
    have hlines : Settles ((score.tracks.map BeatTrack.withSound).mapM
        (·.line score.bars score.beatsPerBar options))
        (∀ s ∈ score.tracks.map BeatTrack.withSound, s.track.Measurable options step) := by
      refine Settles.mapM fun s hmem => settles_line hstep hs ht ?_
      obtain ⟨t, htrack, rfl⟩ := List.mem_map.mp hmem
      exact hn t htrack
    rw [hlines.not_escapes_iff, List.forall_mem_map]
    constructor
    · intro h
      exact ⟨not_escapes_ok total, fun _ _ => h⟩
    · exact fun h => h.2 total rfl

end Cells

end Midi
end PatternLoom
