import PatternLoom.Proofs.Midi.Meter
import PatternLoom.Proofs.Midi.Sounding
import PatternLoom.Proofs.Midi.TempoLine

/-! Whether the pattern of a track keeps its time. Bars that hold a whole number of steps have one
cell for each of them; others have one more, so that a cell is a little shorter than a step. -/

namespace PatternLoom
namespace Midi

open Binary64

section Steps

variable {q : Quantity} {v : ℚ} {bars : Int} {d m steps : Nat}

/-- A whole number of millionths is rounded to the whole number that it is near. -/
theorem ceil_of_whole {z : Binary64} {s n : Nat} (hround : IsRounding z (s / 10 ^ 6))
    (herr : |s - (n : ℚ) * 10 ^ 6| ≤ 1 / 2) (hn : n ≤ 2 ^ 46) : ⌈z.value⌉ = n := by
  obtain ⟨hlow, hhigh⟩ := abs_le.mp herr
  have hcount : s = n * 10 ^ 6 := by
    have hlt : (s : ℚ) < n * 10 ^ 6 + 1 := by linarith
    have hlt' : (n : ℚ) * 10 ^ 6 < s + 1 := by linarith
    have hint : s < n * 10 ^ 6 + 1 := by exact_mod_cast hlt
    have hint' : n * 10 ^ 6 < s + 1 := by exact_mod_cast hlt'
    omega
  have hvalue : (s : ℚ) / 10 ^ 6 = n := by
    rw [div_eq_iff (by norm_num)]
    exact_mod_cast hcount
  rw [hvalue] at hround
  rw [(hround.exact_natCast (by omega)).2]
  exact Int.ceil_natCast n

/-- A number of millionths that is a 128th part away from the next integers is not rounded to
either of them. -/
theorem ceil_of_parts {z : Binary64} {s : Nat} {c : Int} (hround : IsRounding z (s / 10 ^ 6))
    (hz : z.isFinite) (herr : |s - v * 10 ^ 6| ≤ 1 / 2) (hbelow : 128 * (c - 1) + 1 ≤ 128 * v)
    (habove : 128 * v + 1 ≤ 128 * c) (hc : (c : ℚ) ≤ 2 ^ 46) : ⌈z.value⌉ = c := by
  obtain ⟨hlow, hhigh⟩ := abs_le.mp herr
  have hw : (s : ℚ) / 10 ^ 6 < 2 ^ 46 := by linarith
  obtain ⟨herror, herror'⟩ := abs_le.mp (hround.abs_sub_le_of_lt hz hw)
  refine Int.ceil_eq_iff.mpr ⟨?_, ?_⟩
  · linarith
  · linarith

/-- Rounding to six places does not carry a number of 128th parts over an integer. -/
theorem wholeSteps_eq_ceil {y : Binary64} {k : Int} (hy : y.Unsigned) (hm : y.value * 2 ^ 7 = m)
    (hle : y.value ≤ 2 ^ 46) (h : wholeSteps (.real y) = .ok k) : k = ⌈y.value⌉ := by
  have hfinite := isFinite_of_ceil h
  obtain ⟨s, hround, herr⟩ :=
    Decimal.isRounding_roundTo 6 hy (Decimal.isFinite_of_roundTo 6 hfinite)
  rw [eq_ceil_value h]
  obtain ⟨hbelow, habove⟩ := Int.ceil_eq_iff.mp (rfl : ⌈y.value⌉ = ⌈y.value⌉)
  generalize ⌈y.value⌉ = c at *
  rcases habove.eq_or_lt with hwhole | hlt
  · have hnonneg : (0 : ℚ) ≤ c := hwhole ▸ hy.value_nonneg
    obtain ⟨n, rfl⟩ := Int.eq_ofNat_of_zero_le (by exact_mod_cast hnonneg : 0 ≤ c)
    rw [hwhole, Int.cast_natCast] at herr hle
    exact ceil_of_whole hround herr (by exact_mod_cast hle)
  · have hbelow' : (128 * (c - 1) : Int) < m := by
      have hlt' : (128 * (c - 1) : ℚ) < m := by linarith
      exact_mod_cast hlt'
    have habove' : (m : Int) < 128 * c := by
      have hlt' : (m : ℚ) < 128 * c := by linarith
      exact_mod_cast hlt'
    have hparts : (128 * (c - 1) + 1 : ℚ) ≤ m := by exact_mod_cast hbelow'
    have hparts' : (m + 1 : ℚ) ≤ 128 * c := by exact_mod_cast habove'
    have hc : (c : ℚ) ≤ 2 ^ 46 := by
      have hlt' : (c : ℚ) < 2 ^ 46 + 1 := by linarith
      have hint : c < 2 ^ 46 + 1 := by exact_mod_cast hlt'
      exact_mod_cast Int.lt_add_one_iff.mp hint
    exact ceil_of_parts hround hfinite herr (by linarith) (by linarith) hc

/-- A product of bars, beats and steps of a beat is exact. -/
theorem mul_mul_exact {x p s : Binary64} {n d m : Nat} (hx : x.Unsigned) (hxf : x.isFinite)
    (hone : 1 ≤ x.value) (hm : x.value * 2 ^ 7 = m) (hn : 1 ≤ n) (hd : 1 ≤ d)
    (hsize : n * x.value * d ≤ 2 ^ 46) (hp : ofInt n = .ok p) (hs : ofInt d = .ok s) :
    (p * x * s).Unsigned ∧ (p * x * s).value = n * x.value * d := by
  have hnq : (1 : ℚ) ≤ n := by exact_mod_cast hn
  have hdq : (1 : ℚ) ≤ d := by exact_mod_cast hd
  have hbars : (n : ℚ) ≤ n * x.value := le_mul_of_one_le_right (by linarith) hone
  have hbeats : (n : ℚ) * x.value ≤ n * x.value * d :=
    le_mul_of_one_le_right (by linarith) hdq
  have hsteps : (d : ℚ) ≤ n * x.value * d :=
    le_mul_of_one_le_left (by linarith) (by linarith)
  have hp' := isRounding_ofInt hp
  have hs' := isRounding_ofInt hs
  have hn' : n ≤ 2 ^ 46 := by exact_mod_cast hbars.trans (hbeats.trans hsize)
  have hd' : d ≤ 2 ^ 46 := by exact_mod_cast hsteps.trans hsize
  obtain ⟨hpf, hpv⟩ := hp'.exact_natCast (by omega)
  obtain ⟨hsf, hsv⟩ := hs'.exact_natCast (by omega)
  have hpx := isRounding_mul hp'.unsigned hx hpf hxf
  rw [hpv] at hpx
  have hpxm : n * x.value * 2 ^ 7 = (n * m : Nat) := by
    push_cast
    rw [← hm]
    ring
  have hpxsm : n * x.value * d * 2 ^ 7 = (n * m * d : Nat) := by
    push_cast
    rw [← hm]
    ring
  have hpxle : ((n * m : Nat) : ℚ) ≤ 2 ^ 53 := by linarith
  have hpxsle : ((n * m * d : Nat) : ℚ) ≤ 2 ^ 53 := by linarith
  obtain ⟨hpxf, hpxv⟩ := hpx.exact hpxm (by exact_mod_cast hpxle) (by decide)
  have hpxs := isRounding_mul hpx.unsigned hs'.unsigned hpxf hsf
  rw [hpxv, hsv] at hpxs
  exact ⟨hpxs.unsigned, (hpxs.exact hpxsm (by exact_mod_cast hpxsle) (by decide)).2⟩

/-- The bars have a whole number of steps, which is the least that is enough. -/
theorem totalSteps_eq_ceil (hq : BarLength q v) (hm : v * 2 ^ 7 = m) (hbars : 1 ≤ bars)
    (hd : 1 ≤ d) (hsize : bars * v * d ≤ 2 ^ 46)
    (h : totalSteps bars q (.whole d) = .ok steps) : (steps : Int) = ⌈bars * v * d⌉ := by
  obtain ⟨n, rfl⟩ := Int.eq_ofNat_of_zero_le (by omega : 0 ≤ bars)
  have hn : 1 ≤ n := by omega
  have hone := hq.one_le
  rw [Int.cast_natCast] at hsize ⊢
  obtain ⟨count, rfl, hkind⟩ := totalSteps_eq_ok hq h
  have hpos : (1 : ℚ) ≤ n * v * d := by
    have hnq : (1 : ℚ) ≤ n := by exact_mod_cast hn
    have hdq : (1 : ℚ) ≤ d := by exact_mod_cast hd
    exact one_le_mul_of_one_le_of_one_le (one_le_mul_of_one_le_of_one_le hnq hone) hdq
  have hceil : count = ⌈n * v * d⌉ := by
    rcases hkind with ⟨rfl, rfl⟩ | ⟨x, p, s, ⟨hx, hxf, rfl⟩, ⟨hp, hs⟩, hcount⟩
    · rw [mul_one, ← Nat.cast_mul, ← Nat.cast_mul, Int.ceil_natCast]
    · obtain ⟨hunsigned, hvalue⟩ := mul_mul_exact hx hxf hone hm hn hd hsize hp hs
      rw [← hvalue] at hsize ⊢
      refine wholeSteps_eq_ceil (m := n * m * d) hunsigned ?_ hsize hcount
      rw [hvalue]
      push_cast
      rw [← hm]
      ring
  have hceilPos : 1 ≤ count := hceil ▸ Int.one_le_ceil_iff.mpr (by linarith)
  rw [← hceil]
  omega

end Steps

section Playing

variable {step : Binary64} {bars : Int} {q : Quantity} {v : ℚ} {d j total : Nat} {n m : BeatNote}
  {g : BeatTrack} {options : ImportOptions} {text : String}

/-- A note begins on a step of a grid of `d` steps a beat, but for rounding. -/
structure BeatNote.OnStep (step : Binary64) (d j : Nat) (n : BeatNote) : Prop where
  start_eq : ∃ x, ofInt j = .ok x ∧ n.start = x * step
  near : |n.start.value * d - j| ≤ j / 2 ^ 51

/-- How the member of a track begins. -/
def BeatTrack.call (t : BeatTrack) : String :=
  match t.role with
  | .drum => "s("
  | .melodic => "note("

/-- A track on the grid, the member that plays its pattern over the bars, and the cells of that
pattern. There are as many as the bars have steps, or the next whole number, and every note is
told in the cell of the step on which it begins. -/
structure BeatTrack.PlayedBy (g : BeatTrack) (step : Binary64) (bars : Int) (v : ℚ) (d : Nat)
    (text : String) (cells : List (List String)) : Prop where
  text_eq : ∃ tokens rest, text = g.call ++ literal (" ".intercalate tokens) ++ ").slow(" ++
    toString bars ++ ")" ++ rest ∧ readPattern (" ".intercalate tokens) = cells
  length_eq : (cells.length : Int) = ⌈bars * v * d⌉
  told : g.ToldBy cells.length step cells
  onStep : ∀ n ∈ g.notes, ∃ j : Nat, j < cells.length ∧ n.OnStep step d j ∧
    stepIndex cells.length step n.start = .ok j
  fraction : (∃ k : Int, bars * v * d = k) → ∀ j : Nat, (j : ℚ) / cells.length = j / d / (bars * v)

theorem BeatTrack.line_eq_ok (h : g.withSound.line bars q options = .ok text) :
    ∃ tokens rest, stepTokens g bars q options = .ok tokens ∧ text = g.call ++
      literal (" ".intercalate tokens) ++ ").slow(" ++ toString bars ++ ")" ++ rest := by
  simp only [SoundTrack.line, bind_eq_ok, pure_eq_ok] at h
  obtain ⟨tokens, htokens, gain, -, rfl⟩ := h
  change stepTokens g bars q options = .ok tokens at htokens
  have hrole : g.withSound.track.role = g.role := rfl
  rw [hrole, call]
  cases g.role with
  | drum =>
    refine ⟨tokens, ".bank(" ++ literal drumSound.sample ++ ")" ++
      (".gain(" ++ Decimal.compact gain ++ ")"), htokens, ?_⟩
    simp only [String.append_assoc]
    rfl
  | melodic =>
    refine ⟨tokens, ".s(" ++ literal g.withSound.sound.sample ++ ")" ++
      (".gain(" ++ Decimal.compact gain ++ ")"), htokens, ?_⟩
    simp only [String.append_assoc]
    rfl

theorem BeatNote.MovedTo.onStep (hs : IsStep step d) (hm : n.MovedTo step m j) (hj : j ≤ 2 ^ 46) :
    m.OnStep step d j := by
  obtain ⟨x, hx, hstart⟩ := hm.start_eq
  have hnear := hs.near (by omega) (hs.isRounding_mul (by omega) hx)
  exact ⟨⟨x, hx, hstart⟩, hstart ▸ hnear.2⟩

theorem BeatTrack.onGrid_playedBy {t : BeatTrack} (hs : IsStep step d)
    (hstep : gridStep options.division.atLeastOne = .ok step)
    (hsteps : ∀ total, totalSteps bars q options.division.atLeastOne = .ok total →
      (total : Int) = ⌈bars * v * d⌉ ∧ total ≤ 2 ^ 46 ∧ g.Within total step)
    (hspaced : Spaced step t.notes) (h : t.onGrid step = .ok g)
    (hline : g.withSound.line bars q options = .ok text) :
    ∃ cells, g.PlayedBy step bars v d text cells := by
  obtain ⟨tokens, rest, htokens, htext⟩ := g.line_eq_ok hline
  obtain ⟨total, step', onsets, htotal, hstep', honsets, hread⟩ := readPattern_stepTokens htokens
  obtain ⟨hceil, hsize, hg⟩ := hsteps total htotal
  obtain rfl := Except.ok.inj (hstep.symm.trans hstep')
  have htold := toldBy_cellMembers options.preferSharps honsets
  rw [← hread] at htold
  have hlength := htold.1
  refine ⟨_, ⟨tokens, rest, htext, rfl⟩, hlength ▸ hceil, hlength.symm ▸ htold, ?_, ?_⟩
  · rw [hlength]
    intro m hm
    obtain ⟨moved, -, hperm, hall⟩ := BeatTrack.onGrid_moved hs hspaced.lasting h
    obtain ⟨n, -, -, k, hk, hmove⟩ := exists_of_forall₂_right hall (hperm.mem_iff.mp hm)
    have hlt := hg n m k hm hk hmove
    have hindex := hmove.stepIndex_eq hs hk hlt (hsize.trans (by decide))
    obtain ⟨j, rfl⟩ := Int.eq_ofNat_of_zero_le hk
    exact ⟨j, by omega, hmove.onStep hs (by omega), hindex⟩
  · rintro ⟨k, hk⟩ j
    have hcells : ((total : Int) : ℚ) = bars * v * d := by
      rw [hceil, hk, Int.ceil_intCast]
    rw [hlength, ← Int.cast_natCast (R := ℚ) total, hcells, div_div, mul_comm (d : ℚ)]

end Playing

/-- An import keeps its time on a grid of a whole number of steps a beat, unless its steps are so
many that products of its numbers are rounded. -/
theorem importBytes_keepsTime {data : List UInt8} {filename : String} {options : ImportOptions}
    {result : Import} {d : Nat} (hd : options.division = .whole d) (hone : 1 ≤ d)
    (h : importBytes data filename options = .ok result) :
    ∃ gridded members step, Stages data filename options result gridded members ∧
      gridStep options.division = .ok step ∧
      (gridded.bars * meterBeats gridded.numerator gridded.denominator * d ≤ 2 ^ 46 →
        List.Forall₂ (fun g text => ∃ cells, g.PlayedBy step gridded.bars
          (meterBeats gridded.numerator gridded.denominator) d text cells)
          gridded.tracks members) := by
  obtain ⟨gridded, members, hstages⟩ := exists_stages h
  obtain ⟨score, beats, notices, reports, hscore, hbeats, hgrid⟩ := hstages.read
  have hreadable := Score.readable_of_read hscore
  obtain ⟨hq, m, hm⟩ := Score.inBeats_meter hreadable.dyadic hbeats
  simp only [BeatScore.onGrid, bind_eq_ok, pure_eq_ok] at hgrid
  obtain ⟨step, hstep, tracks, htracks, bars, hbars, rfl⟩ := hgrid
  refine ⟨_, members, step, hstages, hstep, fun hsize => ?_⟩
  have hlines := hstages.members_eq
  dsimp only at hsize hlines ⊢
  generalize meterBeats beats.numerator beats.denominator = v at *
  have hbarsOne := one_le_barCount hbars
  have hdivision : (d : ℚ) ≤ bars * v * d :=
    le_mul_of_one_le_left (Nat.cast_nonneg d)
      (one_le_mul_of_one_le_of_one_le (by exact_mod_cast hbarsOne) hq.one_le)
  have hd' : d ≤ 2 ^ 46 := by exact_mod_cast hdivision.trans hsize
  have hatLeast : options.division.atLeastOne = .whole d := by
    rw [hd, Quantity.atLeastOne]
    exact congrArg Quantity.whole (by omega)
  have hs : IsStep step d := isStep_gridStep hone (by omega) (by rwa [hd] at hstep)
  have hlow := hs.le_value
  have hspaced := Score.inBeats_spaced hs.unsigned (by linarith) hstep hreadable.sounds hbeats
  have hsteps : ∀ total, totalSteps bars beats.beatsPerBar options.division.atLeastOne = .ok total →
      (total : Int) = ⌈bars * v * d⌉ ∧ total ≤ 2 ^ 46 ∧ ∀ g ∈ tracks, g.Within total step := by
    intro total htotal
    rw [hatLeast] at htotal
    have hceil := totalSteps_eq_ceil hq hm hbarsOne hone hsize htotal
    have hle : (total : Int) ≤ 2 ^ 46 := by
      rw [hceil, Int.ceil_le]
      exact_mod_cast hsize
    have hle' : total ≤ 2 ^ 46 := by exact_mod_cast hle
    exact ⟨hceil, hle', onGrid_within hs hone hq hspaced htracks hbars htotal (by omega)⟩
  refine ((List.forall₂_and_left _ _).mpr ⟨fun g hg => hg, hlines⟩).imp ?_
  rintro g text ⟨hg, hline⟩
  obtain ⟨t, ht, hgt⟩ := exists_of_forall₂_right (mapM_eq_ok.mp htracks) hg
  refine BeatTrack.onGrid_playedBy hs (by rwa [gridStep_atLeastOne]) (fun total htotal => ?_)
    (hspaced t ht) hgt hline
  obtain ⟨hceil, hle, hwithin⟩ := hsteps total htotal
  exact ⟨hceil, hle, hwithin g hg⟩

/-- The score of a file on its grid. -/
def griddedScore (data : List UInt8) (filename : String) (options : ImportOptions) :
    Result BeatScore := do
  let score ← Score.read data
  let (beats, _, _) ← score.inBeats filename options
  beats.onGrid options

theorem Stages.griddedScore_eq {data : List UInt8} {filename : String} {options : ImportOptions}
    {result : Import} {gridded : BeatScore} {members : List String}
    (h : Stages data filename options result gridded members) :
    griddedScore data filename options = .ok gridded := by
  obtain ⟨score, beats, notices, reports, hscore, hbeats, hgrid⟩ := h.read
  exact bind_eq_ok.mpr ⟨score, hscore, bind_eq_ok.mpr ⟨_, hbeats, hgrid⟩⟩

/-- A note on the third beat of a bar of seven eighths. -/
def sevenEighths : List UInt8 := [
  0x4d, 0x54, 0x68, 0x64, 0, 0, 0, 6, 0, 0, 0, 1, 0x01, 0xe0,
  0x4d, 0x54, 0x72, 0x6b, 0, 0, 0, 22, 0, 0xff, 0x58, 4, 7, 3, 24, 8,
  0x87, 0x40, 0x90, 60, 100, 0x83, 0x60, 0x80, 60, 0, 0, 0xff, 0x2f, 0]

theorem meterBeats_sevenEighths : meterBeats 7 8 = 7 / 2 := by
  norm_num [meterBeats]

/-- The seven eighths on a grid of eighths. -/
theorem sevenEighths_keepsTime : ∃ result gridded members step,
    (wholeGrid 2).division = .whole (2 : Nat) ∧
    importBytes sevenEighths "lead.mid" (wholeGrid 2) = .ok result ∧
    Stages sevenEighths "lead.mid" (wholeGrid 2) result gridded members ∧
    gridded.bars * meterBeats gridded.numerator gridded.denominator * (2 : Nat) = 7 ∧
    gridStep (wholeGrid 2).division = .ok step ∧
    List.Forall₂ (fun g text => ∃ cells, g.PlayedBy step gridded.bars
      (meterBeats gridded.numerator gridded.denominator) 2 text cells) gridded.tracks members := by
  obtain ⟨result, hresult⟩ :=
    eq_ok_of_isOk (x := importBytes sevenEighths "lead.mid" (wholeGrid 2)) (by decide +kernel)
  obtain ⟨gridded, members, step, hstages, hstep, hplayed⟩ :=
    importBytes_keepsTime (d := 2) rfl (by decide) hresult
  have hmeter : (griddedScore sevenEighths "lead.mid" (wholeGrid 2)).map
      (fun g => (g.bars, g.numerator, g.denominator)) = .ok (1, 7, 8) := by
    decide +kernel
  rw [hstages.griddedScore_eq] at hmeter
  obtain ⟨hbars, hnumerator, hdenominator⟩ : gridded.bars = 1 ∧ gridded.numerator = 7 ∧
      gridded.denominator = 8 := by
    simpa using Except.ok.inj hmeter
  have hsize : gridded.bars * meterBeats gridded.numerator gridded.denominator * (2 : Nat) = 7 := by
    rw [hbars, hnumerator, hdenominator, meterBeats_sevenEighths]
    norm_num
  exact ⟨result, gridded, members, step, rfl, hresult, hstages, hsize, hstep,
    hplayed (by rw [hsize]; norm_num)⟩

/-- On a grid of quarters the bar has no whole number of steps: its four cells are shorter than a
beat, and the note comes early. Products of many steps are rounded. -/
theorem sevenEighths_early : (∃ result,
    importBytes sevenEighths "lead.mid" (wholeGrid 1) = .ok result ∧ result.bars = 1 ∧
    result.code = "\n".intercalate ["// MIDI import: lead",
      "// Tempo: 120 BPM | Time: 7/8 | Bars: 1", "// Track 1: Track 1 - Fallback Synth (1 notes)",
      "setcps(1.000);", "stack(", "  note(\"~!2 c4 ~\").slow(1).s(\"sawtooth\").gain(0.431)", ")"] ∧
    readPattern "~!2 c4 ~" = [[], [], ["c4"], []] ∧
    (4 : ℚ) ≠ 1 * meterBeats 7 8 * 1 ∧ (2 : ℚ) / 4 ≠ 2 / 1 / (1 * meterBeats 7 8)) ∧
    totalSteps 1 (.real 4) (.whole (2 ^ 53 + 1)) = .ok (2 ^ 55) := by
  have himport : (importBytes sevenEighths "lead.mid" (wholeGrid 1)).map
      (fun r => (r.bars, r.code)) = .ok (1, "\n".intercalate ["// MIDI import: lead",
        "// Tempo: 120 BPM | Time: 7/8 | Bars: 1", "// Track 1: Track 1 - Fallback Synth (1 notes)",
        "setcps(1.000);", "stack(", "  note(\"~!2 c4 ~\").slow(1).s(\"sawtooth\").gain(0.431)",
        ")"]) := by
    decide +kernel
  refine ⟨?_, by decide +kernel⟩
  cases hresult : importBytes sevenEighths "lead.mid" (wholeGrid 1) with
  | error e =>
    rw [hresult] at himport
    cases himport
  | ok result =>
    rw [hresult] at himport
    obtain ⟨hbars, hcode⟩ := Prod.mk.inj (Except.ok.inj himport)
    refine ⟨result, rfl, hbars, hcode, by decide +kernel, ?_, ?_⟩
    · rw [meterBeats_sevenEighths]
      norm_num
    · rw [meterBeats_sevenEighths]
      norm_num

end Midi
end PatternLoom
