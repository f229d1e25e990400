import Mathlib
import PatternLoom.Proofs.Decimal.Printed
import PatternLoom.Proofs.Tempo.Directive

/-! Setting the tempo of a program. The statement that is written is the first directive of
the new text, so the tempo set last is the one that is read, and only the directive that was
read before makes way for it. -/

namespace PatternLoom
namespace Tempo

section Straddling

theorem Call.getElem?_word {word call : List Char} {x : Binary64} (h : Call word call x) {i : Nat}
    (hi : i < word.length) : ∃ c, call[i]? = some c ∧ sameLetter word[i] c = true := by
  cases h with
  | @intro w _ _ _ _ hw _ _ _ =>
    have hlength : word.length = w.length := hw.length_eq
    have hletter := (List.forall₂_iff_get.mp hw).2 i hi (by omega)
    refine ⟨w[i], ?_, hletter⟩
    rw [List.getElem?_append_left (by omega), List.getElem?_eq_getElem (by omega)]

theorem Numeral.mem {numeral : List Char} {x : Binary64} (h : Numeral numeral x) :
    ∀ c ∈ numeral, isAsciiDigit c = true ∨ c = '.' := by
  cases h with
  | whole _ hds => exact fun c hc => .inl (hds c hc)
  | pointed hds _ hes =>
    intro c hc
    rcases List.mem_append.mp hc with hc | hc
    · exact .inl (hds c hc)
    · rcases List.mem_cons.mp hc with rfl | hc
      · exact .inr rfl
      · exact .inl (hes c hc)

/-- Behind its word a call has no such letter. -/
theorem Call.ne_of_getElem? {word call : List Char} {x : Binary64} (h : Call word call x) {i : Nat}
    {c : Char} (hi : word.length ≤ i) (hc : call[i]? = some c) : c ≠ 's' := by
  cases h with
  | @intro w left numeral right _ hw hleft hnum hright =>
    have hlength : word.length = w.length := hw.length_eq
    rw [List.getElem?_append_right (by omega)] at hc
    rintro rfl
    rcases List.mem_append.mp (List.mem_of_getElem? hc) with hmem | hmem
    · exact absurd (hleft _ hmem) (by decide)
    · rcases List.mem_append.mp hmem with hmem | hmem
      · exact absurd (hnum.mem _ hmem) (by decide)
      · rcases List.mem_append.mp hmem with hmem | hmem
        · exact absurd (hright _ hmem) (by decide)
        · exact absurd (List.mem_singleton.mp hmem) (by decide)

theorem eq_five_of_sameLetter :
    ∀ i (h : i < cpsWord.length), 0 < i → sameLetter cpsWord[i] 's' = true → i = 5 := by
  decide

/-- A call that begins before a statement ends before it. -/
theorem Call.ends_before {before text call rest : List Char} {x : Binary64}
    (h : Call cpsWord call x) (hne : before ≠ [])
    (hparts : before ++ 's' :: 'e' :: text = call ++ rest) : ∃ tail, before = call ++ tail := by
  rcases List.append_eq_append_iff.mp hparts with ⟨more, hcall, htext⟩ | ⟨tail, hbefore, _⟩
  swap
  · exact ⟨tail, hbefore⟩
  cases more with
  | nil => exact ⟨[], by rw [hcall, List.append_nil, List.append_nil]⟩
  | cons c more =>
    exfalso
    obtain ⟨rfl, hmore⟩ := List.cons.inj htext
    have hpos := List.length_pos_iff.mpr hne
    have hat : call[before.length]? = some 's' := by
      rw [hcall, List.getElem?_append_right le_rfl, Nat.sub_self]
      rfl
    -- In the word a statement could begin only at its second `s`, and a bracket follows there,
    -- not the second letter of a statement.
    rcases Nat.lt_or_ge before.length cpsWord.length with hlt | hge
    · obtain ⟨c, hc, hsame⟩ := h.getElem?_word hlt
      obtain rfl := Option.some.inj (hat.symm.trans hc)
      have hfive := eq_five_of_sameLetter before.length hlt hpos hsame
      obtain ⟨d, hd, hbracket⟩ := h.getElem?_word (i := 6) (by decide)
      have hnext : call[6]? = more[0]? := by
        rw [hcall, List.getElem?_append_right (by omega), hfive]
        rfl
      cases more with
      | nil => simp [hnext] at hd
      | cons e more =>
        obtain rfl := (List.cons.inj hmore).1
        rw [hnext] at hd
        obtain rfl := Option.some.inj hd
        exact absurd hbracket (by decide)
    · exact h.ne_of_getElem? hge hat rfl

end Straddling

section Writing

/-- A tempo that is printed without a minus sign. -/
theorem exists_finite_of_fixed {a : Binary64} (ha : a.isFinite)
    (h : '-' ∉ (Decimal.fixed 3 a).toList) : ∃ u hu, a = .finite false u hu := by
  obtain ⟨negative, u, hu, rfl⟩ := Binary64.exists_finite ha
  cases negative with
  | false => exact ⟨u, hu, rfl⟩
  | true =>
    refine absurd ?_ h
    simp [Decimal.fixed, Decimal.signText]

theorem numeral_fixed {a : Binary64} (ha : a.isFinite) (h : '-' ∉ (Decimal.fixed 3 a).toList) :
    Numeral (Decimal.fixed 3 a).toList (Decimal.roundTo 3 a) := by
  obtain ⟨u, hu, rfl⟩ := exists_finite_of_fixed ha h
  obtain ⟨whole, fraction, htext, _, hne, hwhole, hfraction, hvalue⟩ :=
    @Decimal.fixed_eq_digits 3 u (by decide) (by decide) hu
  rw [htext, ← hvalue]
  exact .pointed hwhole hne hfraction

theorem statement_eq (a : Binary64) :
    statement a = cpsWord ++ ((Decimal.fixed 3 a).toList ++ [')', ';']) := List.append_assoc _ _ _

theorem call_statement {a : Binary64} (ha : a.isFinite)
    (h : '-' ∉ (Decimal.fixed 3 a).toList) (after : List Char) : ∃ call,
      statement a ++ after = call ++ ';' :: after ∧ Call cpsWord call (Decimal.roundTo 3 a) := by
  have hword : Spells cpsWord cpsWord := by
    unfold Spells
    decide
  refine ⟨_, ?_, @Call.intro _ _ [] _ [] _ hword nofun (numeral_fixed ha h) nofun⟩
  simp only [statement_eq, List.append_assoc, List.nil_append, List.cons_append]

/-- Behind a text without a call a statement is the first call. -/
theorem findCall_statement {a : Binary64} {before : List Char} (ha : a.isFinite)
    (h : '-' ∉ (Decimal.fixed 3 a).toList) (hbefore : Callless cpsWord before)
    (after : List Char) : findCall cpsWord (before ++ (statement a ++ after)) =
      some (before, Decimal.roundTo 3 a, ';' :: after) := by
  obtain ⟨call, hcall, hstatement⟩ := call_statement ha h after
  obtain ⟨text, hstart⟩ : ∃ text, statement a ++ after = 's' :: 'e' :: text := by
    rw [statement_eq]
    exact ⟨_, rfl⟩
  rw [hcall]
  refine findCall_append hstatement fun before' call' rest' y hparts hcall' => ?_
  by_contra hlt
  obtain ⟨t, rfl, ht⟩ : ∃ t, before = before' ++ t ∧ t ≠ [] := by
    rcases List.append_eq_append_iff.mp hparts with ⟨t, rfl, _⟩ | ⟨t, rfl, _⟩
    · simp only [List.length_append] at hlt
      omega
    · refine ⟨t, rfl, ?_⟩
      rintro rfl
      simp at hlt
  rw [List.append_assoc, List.append_cancel_left_eq, ← hcall, hstart] at hparts
  obtain ⟨tail, rfl⟩ := hcall'.ends_before ht hparts
  exact hbefore before' call' tail y rfl hcall'

/-- Where the statement is written does not depend on the tempo, and no call stands before. -/
theorem exists_frame (cs : List Char) : ∃ before after, Callless cpsWord before ∧
    ∀ cycles, charsWithCycles cs cycles = before ++ (statement cycles ++ after) := by
  have hempty : Callless cpsWord [] := findCall_eq_none_iff.mp rfl
  unfold charsWithCycles replaceFirst
  cases hcps : findCall cpsWord cs with
  | some found =>
    obtain ⟨before, x, rest⟩ := found
    exact ⟨before, dropEnd rest, .of_findCall hcps, fun _ => List.append_assoc _ _ _⟩
  | none =>
    have hnone := findCall_eq_none_iff.mp hcps
    cases hbpm : findCall bpmWord cs with
    | some found =>
      obtain ⟨before, x, rest⟩ := found
      obtain ⟨call, rfl, _, _⟩ := findCall_eq_some hbpm
      exact ⟨before, dropEnd rest, hnone.of_append, fun _ => List.append_assoc _ _ _⟩
    | none =>
      by_cases hblank : (trim cs).isEmpty
      · exact ⟨[], [], hempty, fun cycles => by simp [hblank]⟩
      · exact ⟨[], '\n' :: cs, hempty, fun cycles => by simp [hblank]⟩

theorem charsWithCycles_of_contains {cs : List Char} (h : Contains cpsWord cs)
    (cycles : Binary64) : ∃ before d after x, Leftmost cpsWord cs before d after x ∧
      charsWithCycles cs cycles = before ++ (statement cycles ++ after) := by
  obtain ⟨before, x, rest, hfind⟩ := exists_findCall h
  obtain ⟨d, hd⟩ := leftmost_of_findCall hfind
  refine ⟨before, d, _, x, hd, ?_⟩
  rw [charsWithCycles, replaceFirst, hfind]
  exact List.append_assoc _ _ _

theorem charsWithCycles_of_contains_beats {cs : List Char} (h : ¬ Contains cpsWord cs)
    (hbeats : Contains bpmWord cs) (cycles : Binary64) : ∃ before d after x,
      Leftmost bpmWord cs before d after x ∧
      charsWithCycles cs cycles = before ++ (statement cycles ++ after) := by
  obtain ⟨before, x, rest, hfind⟩ := exists_findCall hbeats
  obtain ⟨d, hd⟩ := leftmost_of_findCall hfind
  have hnone : findCall cpsWord cs = none := by
    rw [findCall_eq_none_iff]
    exact not_not.mp fun hcall => h (contains_iff.mpr hcall)
  refine ⟨before, d, _, x, hd, ?_⟩
  rw [charsWithCycles, replaceFirst, hnone, replaceFirst, hfind]
  exact List.append_assoc _ _ _

/-- The tempo that is set is read back, and only the last one set counts. It is written in
place of the first directive in cycles, or else of the first one in beats. -/
theorem setCycles_overwrites (code : String) {a : Binary64} (b : Binary64) (ha : a.isFinite)
    (hsign : '-' ∉ (Decimal.fixed 3 a).toList) :
    (baseCycles (setCycles code a) = Decimal.roundTo 3 a ∧
      Numeral (Decimal.fixed 3 a).toList (Decimal.roundTo 3 a)) ∧
    setCycles (setCycles code a) b = setCycles code b ∧
    (Contains cpsWord code.toList → ∃ before d after x,
      Leftmost cpsWord code.toList before d after x ∧
      (setCycles code a).toList = before ++ (statement a ++ after)) ∧
    (¬ Contains cpsWord code.toList → Contains bpmWord code.toList → ∃ before d after x,
      Leftmost bpmWord code.toList before d after x ∧
      (setCycles code a).toList = before ++ (statement a ++ after)) := by
  obtain ⟨before, after, hbefore, hframe⟩ := exists_frame code.toList
  have hfind := findCall_statement ha hsign hbefore after
  refine ⟨⟨?_, numeral_fixed ha hsign⟩, ?_, ?_, ?_⟩
  · rw [baseCycles, setCycles, String.toList_ofList, hframe, hfind]
  · rw [setCycles, setCycles, setCycles, String.toList_ofList, hframe, hframe, charsWithCycles,
      replaceFirst, hfind]
    exact congrArg String.ofList (List.append_assoc _ _ _)
  · intro h
    rw [setCycles, String.toList_ofList]
    exact charsWithCycles_of_contains h a
  · intro h hbeats
    rw [setCycles, String.toList_ofList]
    exact charsWithCycles_of_contains_beats h hbeats a

/-- A directive in other cases, with blanks, where an unfinished one comes before it. -/
theorem setCycles_overwrites_mixedCase :
    (0.5 : Binary64).isFinite = true ∧ '-' ∉ (Decimal.fixed 3 0.5).toList ∧
      baseCycles (setCycles "setcpſETcps( 1 ) ;s(\"bd\")" 0.5) = Decimal.roundTo 3 0.5 ∧
      setCycles (setCycles "setcpſETcps( 1 ) ;s(\"bd\")" 0.5) 2 =
        setCycles "setcpſETcps( 1 ) ;s(\"bd\")" 2 := by
  have hfinite : (0.5 : Binary64).isFinite = true := by decide +kernel
  have hsign : '-' ∉ (Decimal.fixed 3 0.5).toList := by decide +kernel
  obtain ⟨⟨hread, _⟩, hlast, _⟩ :=
    setCycles_overwrites "setcpſETcps( 1 ) ;s(\"bd\")" 2 hfinite hsign
  exact ⟨hfinite, hsign, hread, hlast⟩

end Writing

end Tempo
end PatternLoom
