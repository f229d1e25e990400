import Mathlib
import PatternLoom.Proofs.Arrangement.Heading
import PatternLoom.Proofs.Decimal.Rounded

/-! Programs that are set to a tempo in beats. The program of a rule set counts two beats to the
cycle and a tempo that is set counts four, so a program set to twice some beats is the one that is
written for them, and set to its own beats it is another one. -/

namespace PatternLoom

open Tempo

/-- A program with its tempo set in beats, at its own speed. -/
def Tempo.inBeats (code : String) (bpm : Binary64) : String :=
  setCycles code (effectiveCycles (baseCycles code) 1 (some bpm))

section Cycles

variable {bpm : Binary64}

theorem Tempo.effectiveCycles_one (base : Binary64) :
    effectiveCycles base 1 (some bpm) = bpm / 240 :=
  Binary64.mul_one_eq (bpm / 240)

theorem Tempo.statement_inj {a b : Binary64} :
    statement a = statement b ↔ Decimal.fixed 3 a = Decimal.fixed 3 b := by
  unfold statement
  rw [List.append_left_inj, List.append_right_inj]
  exact String.toList_inj

/-- Twice the beats at four to the cycle are the beats at two. -/
theorem two_mul_div_240 (hfinite : bpm.isFinite) (hunsigned : bpm.Unsigned)
    (h : (2 * bpm).isFinite) : 2 * bpm / 240 = bpm / 120 := by
  obtain ⟨htwo, hvalue⟩ := Binary64.value_two_mul hunsigned hfinite h
  have hround := (isRounding_cycles h htwo).2
  rw [hvalue, show 2 * bpm.value / 240 = bpm.value / 120 by ring] at hround
  exact hround.unique (isRounding_cycles hfinite hunsigned).1

/-- From one beat a minute on the two counts are four thousandths of a cycle apart, and no three
decimals hide that. -/
theorem fixed_cycles_ne (hfinite : bpm.isFinite) (h : 1 ≤ bpm) :
    Decimal.fixed 3 (bpm / 240) ≠ Decimal.fixed 3 (bpm / 120) := by
  obtain ⟨hunsigned, hone⟩ := Binary64.one_le_value hfinite h
  obtain ⟨htwo, hfour⟩ := isRounding_cycles hfinite hunsigned
  have hself := Binary64.isRounding_self hunsigned hfinite
  have htwoFinite := htwo.isFinite_of_le hself (by linarith) hfinite
  have hfourFinite := hfour.isFinite_of_le hself (by linarith) hfinite
  have hlow := htwo.mul_le_value htwoFinite (by linarith)
  obtain ⟨-, hhigh⟩ := abs_le.mp (hfour.abs_sub_le hfourFinite (by linarith))
  obtain ⟨u, hu, htwoEq⟩ := htwo.unsigned.exists_magnitude htwoFinite
  obtain ⟨v, hv, hfourEq⟩ := hfour.unsigned.exists_magnitude hfourFinite
  rw [htwoEq] at hlow ⊢
  rw [hfourEq] at hhigh ⊢
  intro heq
  -- What is printed is one count of thousandths, and it is within a half of only one of the two.
  obtain ⟨-, habove⟩ := abs_le.mp (Decimal.abs_scaled_sub_le 3 hv)
  obtain ⟨hbelow, -⟩ := abs_le.mp (Decimal.abs_scaled_sub_le 3 hu)
  rw [Decimal.scaled_eq_of_fixed (by decide) heq] at habove
  linarith

end Cycles

section Programs

variable {bpm bars : Binary64} {seed code body : String}

/-- The tempo stands in the first line only. -/
theorem RuleSet.program_at {rules : RuleSet} {adjustments : Adjustments}
    (h : rules.program bpm bars seed adjustments = .ok (tempoHeader bpm ++ "\n" ++ body))
    {b : Binary64} (hfinite : b.isFinite) (hpos : ¬ b ≤ 0) :
    rules.program b bars seed adjustments = .ok (tempoHeader b ++ "\n" ++ body) := by
  obtain ⟨_, _, n, segments, blocks, hn, hsegments, hblocks, htext⟩ := program_eq_ok.mp h
  obtain rfl := (String.append_right_inj _).mp htext
  exact program_eq_ok.mpr ⟨hfinite, hpos, n, segments, blocks, hn, hsegments, hblocks, rfl⟩

theorem Template.program_at {t : Template} {params : Params} {rules : Option RuleSet}
    (h : t.program bpm bars params seed rules = .ok (tempoHeader bpm ++ "\n" ++ body))
    {b : Binary64} (hfinite : b.isFinite) (hpos : ¬ b ≤ 0) :
    t.program b bars params seed rules = .ok (tempoHeader b ++ "\n" ++ body) := by
  obtain ⟨adjustments, hadjust, hcode⟩ := bind_eq_ok.mp h
  exact bind_eq_ok.mpr ⟨adjustments, hadjust, RuleSet.program_at hcode hfinite hpos⟩

theorem Headed.toList_inBeats (h : Headed bpm code body) (b : Binary64) :
    (inBeats code b).toList = statement (b / 240) ++ '\n' :: body.toList := by
  rw [inBeats, effectiveCycles_one, h.set]

theorem Headed.inBeats_two_mul (h : Headed bpm code body) {b : Binary64} (hfinite : b.isFinite)
    (hunsigned : b.Unsigned) (hdouble : (2 * b).isFinite) :
    inBeats code (2 * b) = tempoHeader b ++ "\n" ++ body := by
  have hcycles := two_mul_div_240 hfinite hunsigned hdouble
  rw [← String.toList_inj, h.toList_inBeats, toList_headed, hcycles]

theorem Headed.inBeats_eq_iff (h : Headed bpm code body) (b : Binary64) :
    inBeats code b = code ↔ Decimal.fixed 3 (b / 240) = Decimal.fixed 3 (bpm / 120) := by
  have hcode := congrArg String.toList h.text
  rw [toList_headed] at hcode
  rw [← String.toList_inj, h.toList_inBeats, hcode, List.append_left_inj, statement_inj]

/-- A tempo in beats makes of a program the one for half of them. So twice its own beats keep it,
and its own do not. -/
structure Template.TakesHalf (t : Template) (bpm bars : Binary64) (params : Params)
    (seed code : String) : Prop where
  halves : ∀ b : Binary64, b.isFinite → 0 < b → (2 * b).isFinite →
    t.program b bars params seed none = .ok (inBeats code (2 * b))
  keeps_iff : ∀ b : Binary64,
    inBeats code b = code ↔ Decimal.fixed 3 (b / 240) = Decimal.fixed 3 (bpm / 120)
  changes : inBeats code bpm ≠ code

theorem Template.program_takesHalf {t : Template} (ht : t ∈ catalog) {params : Params}
    (hlow : 1 ≤ bpm) (hcode : t.program bpm bars params seed none = .ok code) :
    t.TakesHalf bpm bars params seed code := by
  obtain ⟨body, _, hheaded⟩ := program_headed none (untimed_of_mem_catalog ht) hcode
  obtain ⟨_, _, hprogram⟩ := bind_eq_ok.mp hcode
  obtain ⟨hfinite, _⟩ := program_eq_ok.mp hprogram
  have hkeeps := hheaded.inBeats_eq_iff
  rw [hheaded.text] at hcode
  refine ⟨?_, hkeeps, (hkeeps bpm).not.mpr (fixed_cycles_ne hfinite hlow)⟩
  intro b hb hpos hdouble
  rw [hheaded.inBeats_two_mul hb (Binary64.unsigned_zero.of_lt hpos) hdouble]
  exact program_at hcode hb ((Binary64.pos_iff hb).mp hpos)

end Programs

section Grid

open Catalog.PolyrhythmGrid (template rules)

theorem polyrhythmGrid_program :
    ∃ code, template.program 120 8 template.defaults "abc123" none = .ok code := by
  have hbars : safeBars 8 = .ok 8 := by decide +kernel
  have hsegments := @segments_of_single rules _ rfl rfl (by decide +kernel) 8
  have hok : (do
      let adjustments ← template.adjust template.defaults "abc123"
      segmentBlocks rules (homePatterns (.ofSeed "abc123") rules.layers)
        (adjustments.rotate.getD rules.rotate) adjustments 1
        (cover 8 1 0 [⟨{ id := "grid", layers := ["cycle-a", "cycle-b"], share := some (0, 1) }, 1, 8⟩])).isOk := by
    decide +kernel
  obtain ⟨blocks, hblocks⟩ := eq_ok_of_isOk hok
  obtain ⟨adjustments, hadjust, hblocks⟩ := bind_eq_ok.mp hblocks
  exact ⟨_, bind_eq_ok.mpr ⟨adjustments, hadjust, program_eq_ok.mpr
    ⟨by decide +kernel, by decide +kernel, 8, _, blocks, hbars, hsegments, hblocks, rfl⟩⟩⟩

theorem polyrhythmGrid_takesHalf : template ∈ catalog ∧ (1 : Binary64) ≤ 120 ∧
    ∃ code, template.program 120 8 template.defaults "abc123" none = .ok code ∧
      template.TakesHalf 120 8 template.defaults "abc123" code := by
  have hmem : template ∈ catalog := by simp [catalog]
  have hlow : (1 : Binary64) ≤ 120 := by decide +kernel
  obtain ⟨code, hcode⟩ := polyrhythmGrid_program
  exact ⟨hmem, hlow, code, hcode, Template.program_takesHalf hmem hlow hcode⟩

/-- At 120 beats a minute, which are one cycle a second to the last decimal, a program set to its
own beats is not kept. -/
theorem polyrhythmGrid_not_kept : template ∈ catalog ∧
    Decimal.roundTo 3 (120 / 120) = 120 / 120 ∧
    ∃ code, template.program 120 8 template.defaults "abc123" none = .ok code ∧
      setCycles code (effectiveCycles (baseCycles code) 1 (some 120)) ≠ code := by
  have hmem : template ∈ catalog := by simp [catalog]
  obtain ⟨code, hcode⟩ := polyrhythmGrid_program
  obtain ⟨body, _, hheaded⟩ := Template.program_headed none (untimed_of_mem_catalog hmem) hcode
  refine ⟨hmem, by decide +kernel, code, hcode, (hheaded.inBeats_eq_iff 120).not.mpr ?_⟩
  decide +kernel

end Grid

end PatternLoom
