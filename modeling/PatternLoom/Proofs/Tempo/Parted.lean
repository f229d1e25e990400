import Mathlib
import PatternLoom.Proofs.Tempo.Rewriting
import PatternLoom.Proofs.Tempo.Untimed

/-! A tempo statement behind other text. No call reaches over a character that stands in none, so
a text has a call just if a part of it has one. The statement is the one that is read and replaced
just if no call stands before it. -/

namespace PatternLoom
namespace Tempo

/-- A character that stands in no call. -/
def Apart (c : Char) : Prop :=
  Foreign c ∧ isBlank c = false ∧ isAsciiDigit c = false ∧ c ≠ '.' ∧ c ≠ ')'

instance (c : Char) : Decidable (Apart c) := inferInstanceAs (Decidable (_ ∧ _))

section Parts

variable {word xs ys : List Char} {c : Char}

theorem Call.not_apart {call : List Char} {x : Binary64} (h : Call cpsWord call x) :
    ∀ c ∈ call, ¬ Apart c := by
  rintro c hc ⟨hforeign, hblank, hdigit, hpoint, hclose⟩
  cases h with
  | @intro w left numeral right _ hw hleft hnumber hright =>
    simp only [List.mem_append, List.mem_singleton] at hc
    rcases hc with hc | hc | hc | hc | hc
    · exact hforeign.not_mem (List.mem_cons_self ..) hw hc
    · exact Bool.false_ne_true (hblank.symm.trans (hleft c hc))
    · rcases hnumber.mem c hc with hd | hp
      · exact Bool.false_ne_true (hdigit.symm.trans hd)
      · exact hpoint hp
    · exact Bool.false_ne_true (hblank.symm.trans (hright c hc))
    · exact hclose hc

theorem Call.getLast?_eq {call : List Char} {x : Binary64} (h : Call word call x) :
    call.getLast? = some ')' := by
  cases h with
  | intro => simp

theorem Callless.of_append_right (h : Callless word (xs ++ ys)) : Callless word ys := by
  rintro before call after x rfl
  exact h (xs ++ before) call after x (List.append_assoc _ _ _).symm

theorem callless_nil : Callless word [] := findCall_eq_none_iff.mp rfl

theorem callless_cons (hword : word.head? = some 's') (hc : sameLetter 's' c = false) :
    Callless word (c :: xs) ↔ Callless word xs := by
  have hnone : call? word (c :: xs) = none := by
    obtain ⟨letters, rfl⟩ := List.head?_eq_some_iff.mp hword
    change ((if sameLetter 's' c then _ else none : Option (List Char)).bind _) = none
    rw [hc]
    rfl
  rw [← findCall_eq_none_iff, ← findCall_eq_none_iff, findCall, hnone]
  exact Option.map_eq_none_iff

theorem callless_append_of_not_initial (hword : word.head? = some 's')
    (h : ∀ c ∈ xs, sameLetter 's' c = false) : Callless word (xs ++ ys) ↔ Callless word ys := by
  induction xs with
  | nil => rfl
  | cons c xs ih =>
    obtain ⟨hc, hxs⟩ := List.forall_mem_cons.mp h
    rw [List.cons_append, callless_cons hword hc, ih hxs]

theorem callless_concat (hc : c ≠ ')') : Callless word (xs ++ [c]) ↔ Callless word xs := by
  refine ⟨Callless.of_append, fun h before call after x hparts hcall => ?_⟩
  rcases List.eq_nil_or_concat after with rfl | ⟨after', d, rfl⟩
  · have hlast := congrArg List.getLast? hparts
    rw [List.append_nil, List.getLast?_concat, List.getLast?_append, hcall.getLast?_eq] at hlast
    exact hc (Option.some.inj hlast)
  · rw [List.concat_eq_append, ← List.append_assoc, ← List.append_assoc] at hparts
    obtain ⟨rfl, _⟩ := List.append_inj' hparts rfl
    exact h before call after' x (List.append_assoc _ _ _) hcall

theorem callless_parted (hc : Apart c) :
    Callless cpsWord (xs ++ c :: ys) ↔ Callless cpsWord xs ∧ Callless cpsWord ys := by
  constructor
  · intro h
    refine ⟨h.of_append, ?_⟩
    rw [List.append_cons] at h
    exact h.of_append_right
  · rintro ⟨hxs, hys⟩ before call after x hparts hcall
    -- A call that is in neither part would hold the character between them.
    rcases List.append_eq_append_iff.mp hparts with ⟨more, rfl, hmore⟩ | ⟨more, rfl, hmore⟩
    · cases more with
      | nil =>
        obtain ⟨d, ds, rfl⟩ := List.exists_cons_of_ne_nil hcall.ne_nil
        obtain ⟨rfl, _⟩ := List.cons.inj hmore
        exact hcall.not_apart c List.mem_cons_self hc
      | cons d more =>
        obtain ⟨_, rfl⟩ := List.cons.inj hmore
        exact hys more call after x rfl hcall
    · rcases List.append_eq_append_iff.mp hmore with ⟨rest, rfl, _⟩ | ⟨rest, rfl, hrest⟩
      · exact hxs before call rest x rfl hcall
      · cases rest with
        | nil =>
          rw [List.append_nil] at hcall
          exact hxs before more [] x (by rw [List.append_nil]) hcall
        | cons d rest =>
          obtain ⟨rfl, _⟩ := List.cons.inj hrest
          exact hcall.not_apart c (by simp) hc

theorem callless_append (h : ∀ c ∈ ys.head?, Apart c) :
    Callless cpsWord (xs ++ ys) ↔ Callless cpsWord xs ∧ Callless cpsWord ys := by
  cases ys with
  | nil => rw [List.append_nil, and_iff_left callless_nil]
  | cons c ys =>
    have hc := h c rfl
    rw [callless_parted hc, callless_cons rfl (hc.1 's' (by decide))]

/-- Comments on lines of their own have a call just if one of them has. -/
theorem callless_lines {lines : List (List Char)} (h : ∀ line ∈ lines, line.head? = some '/') :
    Callless cpsWord (lines.flatMap (· ++ ['\n'])) ↔ ∀ line ∈ lines, Callless cpsWord line := by
  induction lines with
  | nil => simpa using callless_nil
  | cons line lines ih =>
    obtain ⟨_, hlines⟩ := List.forall_mem_cons.mp h
    have hhead : ∀ c ∈ (lines.flatMap (· ++ ['\n'])).head?, Apart c := by
      cases lines with
      | nil => exact nofun
      | cons next lines =>
        have hnext := hlines next List.mem_cons_self
        rintro c hc
        rw [List.flatMap_cons, List.append_assoc, List.head?_append, hnext] at hc
        obtain rfl := Option.some.inj hc
        decide
    rw [List.forall_mem_cons, List.flatMap_cons, callless_append hhead, callless_concat (by decide),
      ih hlines]

end Parts

section Frames

theorem length_le_of_frames {before after before' after' : List Char}
    (h : ∀ cycles ∈ [(1 : Binary64), 2],
      before ++ (statement cycles ++ after) = before' ++ (statement cycles ++ after')) :
    before'.length ≤ before.length := by
  by_contra hlt
  -- Where the first statement has its first digit, the second one has not come to its own.
  have hread : ∀ cycles ∈ [(1 : Binary64), 2],
      (statement cycles ++ after)[7]? = (before' ++ cpsWord)[before.length + 7]? := by
    intro cycles hcycles
    have hword : before.length + 7 < (before' ++ cpsWord).length := by
      have hseven : cpsWord.length = 7 := by decide
      rw [List.length_append]
      omega
    have hparts : before' ++ (statement cycles ++ after') = (before' ++ cpsWord) ++
        ((Decimal.fixed 3 cycles).toList ++ [')', ';'] ++ after') := by
      simp only [statement_eq, List.append_assoc]
    have hat := @List.getElem?_append_right _ before (statement cycles ++ after) _
      (Nat.le_add_right before.length 7)
    rw [Nat.add_sub_cancel_left, h cycles hcycles, hparts, List.getElem?_append_left hword] at hat
    exact hat.symm
  have hone : (statement 1 ++ after)[7]? = some '1' := by
    rw [List.getElem?_append_left (by decide +kernel)]
    decide +kernel
  have htwo : (statement 2 ++ after)[7]? = some '2' := by
    rw [List.getElem?_append_left (by decide +kernel)]
    decide +kernel
  have hsame := (hread 1 (by simp)).trans (hread 2 (by simp)).symm
  rw [hone, htwo] at hsame
  exact absurd (Option.some.inj hsame) (by decide)

/-- Two tempos tell where in a text the statement stands. -/
theorem frame_unique {before after before' after' : List Char}
    (h : ∀ cycles ∈ [(1 : Binary64), 2],
      before ++ (statement cycles ++ after) = before' ++ (statement cycles ++ after')) :
    before = before' :=
  (List.append_inj (h 1 (by simp)) (le_antisymm
    (length_le_of_frames fun cycles hcycles => (h cycles hcycles).symm)
    (length_le_of_frames h))).1

theorem callless_of_frame {cs before after : List Char}
    (h : ∀ cycles ∈ [(1 : Binary64), 2],
      charsWithCycles cs cycles = before ++ (statement cycles ++ after)) :
    Callless cpsWord before := by
  obtain ⟨before', after', hcallless, hframe⟩ := exists_frame cs
  rwa [frame_unique fun cycles hcycles => (h cycles hcycles).symm.trans (hframe cycles)]

theorem charsWithCycles_behind {a : Binary64} (hfinite : a.isFinite)
    (hsign : '-' ∉ (Decimal.fixed 3 a).toList) {before : List Char}
    (h : Callless cpsWord before) (after : List Char) (cycles : Binary64) :
    charsWithCycles (before ++ (statement a ++ after)) cycles =
      before ++ (statement cycles ++ after) := by
  rw [charsWithCycles, replaceFirst, findCall_statement hfinite hsign h after]
  exact List.append_assoc _ _ _

end Frames

end Tempo
end PatternLoom
