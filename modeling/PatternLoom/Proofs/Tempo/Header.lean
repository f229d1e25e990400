import Mathlib
import PatternLoom.Program
import PatternLoom.Proofs.Binary64.Scaling
import PatternLoom.Proofs.Tempo.Rewriting
import PatternLoom.Proofs.Tempo.Untimed

/-! Programs with their tempo statement in front. Where the text behind it has no tempo words,
the statement is the one that is read, replaced and taken away. -/

namespace PatternLoom

section Cycles

variable {bpm : Binary64}

/-- Beats a minute as cycles a second, at two and at four beats to the cycle. -/
theorem isRounding_cycles (hfinite : bpm.isFinite) (hunsigned : bpm.Unsigned) :
    Binary64.IsRounding (bpm / 120) (bpm.value / 120) ∧
      Binary64.IsRounding (bpm / 240) (bpm.value / 240) := by
  have htwo := @Binary64.isRounding_div_whole bpm hunsigned hfinite 120 (by decide) (by decide)
  have hfour := @Binary64.isRounding_div_whole bpm hunsigned hfinite 240 (by decide) (by decide)
  rw [Nat.cast_ofNat] at htwo hfour
  exact ⟨htwo, hfour⟩

/-- A tempo above zero in cycles a second is a number, and has no sign. -/
theorem cycles_unsigned (hfinite : bpm.isFinite) (hpos : ¬ bpm ≤ 0) :
    (bpm / 120).isFinite ∧ (bpm / 120).Unsigned := by
  have hunsigned : bpm.Unsigned :=
    Binary64.unsigned_zero.of_lt ((Binary64.pos_iff hfinite).mpr hpos)
  have hround := (isRounding_cycles hfinite hunsigned).1
  have hle : bpm.value / 120 ≤ bpm.value := div_le_self hunsigned.value_nonneg (by norm_num)
  exact ⟨hround.isFinite_of_le (Binary64.isRounding_self hunsigned hfinite) hle hfinite,
    hround.unsigned⟩

theorem Binary64.Unsigned.not_mem_fixed {x : Binary64} (h : x.Unsigned) (hfinite : x.isFinite) :
    '-' ∉ (Decimal.fixed 3 x).toList := by
  obtain ⟨u, hu, rfl⟩ := h.exists_magnitude hfinite
  obtain ⟨whole, fraction, htext, _, _, hwhole, hfraction, _⟩ :=
    @Decimal.fixed_eq_digits 3 u (by decide) (by decide) hu
  rw [htext]
  intro hmem
  rcases List.mem_append.mp hmem with hmem | hmem
  · exact absurd (hwhole _ hmem) (by decide)
  · rcases List.mem_cons.mp hmem with hmem | hmem
    · exact absurd hmem (by decide)
    · exact absurd (hfraction _ hmem) (by decide)

theorem toList_tempoHeader (bpm : Binary64) :
    (tempoHeader bpm).toList = Tempo.statement (bpm / 120) := by
  rw [tempoHeader, cyclesText, String.toList_append, String.toList_append]
  rfl

theorem toList_headed (bpm : Binary64) (body : String) :
    (tempoHeader bpm ++ "\n" ++ body).toList =
      Tempo.statement (bpm / 120) ++ '\n' :: body.toList := by
  rw [String.toList_append, String.toList_append, toList_tempoHeader, List.append_assoc]
  rfl

theorem numeral_cyclesText (hfinite : bpm.isFinite) (hpos : ¬ bpm ≤ 0) :
    Tempo.Numeral (cyclesText bpm).toList (Decimal.roundTo 3 (bpm / 120)) := by
  obtain ⟨hcycles, hunsigned⟩ := cycles_unsigned hfinite hpos
  exact Tempo.numeral_fixed hcycles (hunsigned.not_mem_fixed hcycles)

end Cycles

section Heads

open Tempo

theorem trim_eq_self {cs : List Char} (hhead : ∀ c ∈ cs.head?, isBlank c = false)
    (hlast : ∀ c ∈ cs.getLast?, isBlank c = false) : trim cs = cs := by
  have hleft : trimLeft cs = cs := by
    have happend := @trimLeft_append [] cs nofun hhead
    rwa [List.nil_append] at happend
  have hright : trimLeft cs.reverse = cs.reverse := by
    rw [← List.head?_reverse] at hlast
    have happend := @trimLeft_append [] cs.reverse nofun hlast
    rwa [List.nil_append] at happend
  rw [trim, hleft, trimRight]
  change (trimLeft cs.reverse).reverse = cs
  rw [hright, List.reverse_reverse]

variable {a : Binary64} (hfinite : a.isFinite) (hsign : '-' ∉ (Decimal.fixed 3 a).toList)

include hfinite hsign

theorem removeAll_statement (rest : List Char) :
    removeAll cpsWord (statement a ++ rest) = removeAll cpsWord (trimLeft rest) := by
  obtain ⟨call, htext, hcall⟩ := call_statement hfinite hsign rest
  obtain ⟨c, cs, hcs⟩ := List.exists_cons_of_ne_nil
    (List.append_ne_nil_of_left_ne_nil hcall.ne_nil (';' :: rest))
  have hread : call? cpsWord (c :: cs) = some (Decimal.roundTo 3 a, ';' :: rest) :=
    call?_eq_some_iff.mpr ⟨call, hcs.symm, hcall⟩
  rw [htext, hcs, removeAll]
  split
  · rename_i x after hafter
    rw [hread] at hafter
    obtain ⟨_, rfl⟩ := Prod.mk.inj (Option.some.inj hafter)
    rfl
  · rename_i hnone
    rw [hread] at hnone
    cases hnone

theorem afterLeadingCall_statement (rest : List Char) :
    afterLeadingCall (statement a ++ rest) = some (trimLeft rest) := by
  have hnumber : ∀ c ∈ (Decimal.fixed 3 a).toList, decide (c ≠ ')') = true := by
    intro c hc
    rw [decide_eq_true_eq]
    rintro rfl
    rcases (numeral_fixed hfinite hsign).mem _ hc with hdigit | hpoint
    · exact absurd hdigit (by decide)
    · exact absurd hpoint (by decide)
  have hspells : Spells cpsWord cpsWord := by
    unfold Spells
    decide
  have hafter : afterWord cpsWord (trimLeft (statement a ++ rest)) =
      some ((Decimal.fixed 3 a).toList ++ ')' :: ';' :: rest) := by
    refine afterWord_eq_some_iff.mpr ⟨cpsWord, ?_, hspells⟩
    have htrim := @trimLeft_append [] (statement a ++ rest) nofun (by
      rintro c ⟨⟩
      decide)
    rw [List.nil_append] at htrim
    rw [htrim, statement_eq, List.append_assoc, List.append_assoc]
    rfl
  rw [afterLeadingCall, hafter]
  simp only [Option.bind_eq_bind, Option.bind_some, List.dropWhile_append_of_pos hnumber]
  rfl

end Heads

section Programs

open Tempo

/-- A program that states its tempo once, in front of a sequence, where it is read, set and taken
away without a change to the rest. -/
structure Headed (bpm : Binary64) (code body : String) : Prop where
  text : code = tempoHeader bpm ++ "\n" ++ body
  starts : "cat(".toList <+: body.toList
  untimed : ¬ Contains cpsWord body.toList ∧ ¬ Contains bpmWord body.toList
  read : baseCycles code = Decimal.roundTo 3 (bpm / 120) ∧
    Numeral (cyclesText bpm).toList (baseCycles code)
  set : ∀ cycles, (setCycles code cycles).toList = statement cycles ++ '\n' :: body.toList
  stripped : strip code = body
  strippedLeading : stripLeading code = body

/-- A text that begins and ends as a sequence does, with no tempo word in it. -/
structure IsBody (body : String) : Prop where
  starts : "cat(".toList <+: body.toList
  ends : body.toList.getLast? = some ')'
  untimed : Untimed body.toList

theorem IsBody.trimLeft_eq {body : String} (h : IsBody body) :
    trimLeft ('\n' :: body.toList) = body.toList := by
  obtain ⟨rest, hrest⟩ := h.starts
  rw [← hrest]
  exact @trimLeft_append ['\n'] ("cat(".toList ++ rest) (by simp; decide) (by
    rintro c ⟨⟩
    decide)

theorem IsBody.trim_eq {body : String} (h : IsBody body) : trim body.toList = body.toList := by
  have hhead : ∀ c ∈ body.toList.head?, isBlank c = false := by
    obtain ⟨rest, hrest⟩ := h.starts
    rw [← hrest]
    rintro c ⟨⟩
    decide
  refine trim_eq_self hhead ?_
  rw [h.ends]
  rintro c ⟨⟩
  decide

theorem IsBody.headed {bpm : Binary64} {body : String} (h : IsBody body) (hfinite : bpm.isFinite)
    (hpos : ¬ bpm ≤ 0) : Headed bpm (tempoHeader bpm ++ "\n" ++ body) body := by
  obtain ⟨hcycles, hunsigned⟩ := cycles_unsigned hfinite hpos
  have hsign := hunsigned.not_mem_fixed hcycles
  have hcode := toList_headed bpm body
  have hempty : Callless cpsWord [] := findCall_eq_none_iff.mp rfl
  have hfind := findCall_statement hcycles hsign hempty ('\n' :: body.toList)
  rw [List.nil_append] at hfind
  have hread : baseCycles (tempoHeader bpm ++ "\n" ++ body) = Decimal.roundTo 3 (bpm / 120) := by
    rw [baseCycles, hcode, hfind]
  refine ⟨rfl, h.starts, ?_, ⟨hread, ?_⟩, fun cycles => ?_, ?_, ?_⟩
  · rw [contains_iff, contains_iff, not_not, not_not]
    exact ⟨h.untimed.callless (by simp), h.untimed.callless (by simp)⟩
  · rw [hread]
    exact numeral_cyclesText hfinite hpos
  · rw [setCycles, String.toList_ofList, hcode, charsWithCycles, replaceFirst, hfind]
    rfl
  · rw [strip, hcode, removeAll_statement hcycles hsign, h.trimLeft_eq,
      h.untimed.removeAll_eq (by simp), h.untimed.removeAll_eq (by simp), h.trim_eq,
      String.ofList_toList]
  · rw [stripLeading, hcode, afterLeadingCall_statement hcycles hsign, Option.getD_some,
      h.trimLeft_eq, h.trim_eq, String.ofList_toList]

end Programs

end PatternLoom
