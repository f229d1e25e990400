import Mathlib
import PatternLoom.Decimal.Numeral
import PatternLoom.Proofs.Decimal.Printed
import PatternLoom.Proofs.Decimal.Rounded

/-! Numbers that are printed without trailing zeros and read again as numerals. What is printed
reads as a number above zero exactly if it counts at least one thousandth. -/

namespace PatternLoom
namespace Decimal

section Plain

/-- A digit or the point. -/
def IsPlain (c : Char) : Prop := isAsciiDigit c = true ∨ c = '.'

/-- A character that no stage of the reader changes or leaves out: the minus sign is one too. -/
def IsKept (c : Char) : Prop := 45 ≤ c.toNat ∧ c.toNat ≤ 57

variable {c : Char} {cs : List Char}

theorem IsPlain.toNat (h : IsPlain c) : 46 ≤ c.toNat ∧ c.toNat ≤ 57 := by
  rcases h with h | rfl
  · rw [isAsciiDigit, Bool.and_eq_true, decide_eq_true_eq, decide_eq_true_eq] at h
    have hlow : 48 ≤ c.toNat := h.1
    have hhigh : c.toNat ≤ 57 := h.2
    omega
  · decide

theorem IsPlain.kept (h : IsPlain c) : IsKept c := by
  have hcode := h.toNat
  exact ⟨by omega, hcode.2⟩

theorem IsKept.asciiForm_eq (h : IsKept c) : asciiForm c = c := by
  obtain ⟨-, hhigh⟩ := h
  rw [asciiForm, if_pos (by omega)]

theorem IsKept.not_blank (h : IsKept c) : isNumeralBlank c = false := by
  obtain ⟨hlow, hhigh⟩ := h
  have hspace : c ≠ ' ' := by
    rintro rfl
    exact absurd hlow (by decide)
  simp only [isNumeralBlank, beq_eq_false_iff_ne.mpr hspace, Bool.false_or, Bool.and_eq_false_imp,
    decide_eq_true_eq, decide_eq_false_iff_not]
  omega

theorem IsKept.ne {d : Char} (h : IsKept c) (hd : 57 < d.toNat ∨ d.toNat < 45) : c ≠ d := by
  rintro rfl
  obtain ⟨hlow, hhigh⟩ := h
  omega

theorem IsPlain.ne_minus (h : IsPlain c) : c ≠ '-' := by
  rintro rfl
  exact absurd h.toNat.1 (by decide)

theorem IsPlain.toLower_eq (h : IsPlain c) : c.toLower = c := by
  have hcode := h.toNat
  have hlow : ¬ (65 ≤ c.toNat ∧ c.toNat ≤ 90) := by omega
  exact dif_neg hlow

theorem splitSign_eq (hplain : ∀ c ∈ cs, IsPlain c) : splitSign cs = (false, cs) := by
  cases cs with
  | nil => rfl
  | cons c cs =>
    have hc := hplain c List.mem_cons_self
    unfold splitSign
    split
    · rename_i heq
      exact absurd (List.cons.inj heq).1 hc.ne_minus
    · rename_i heq
      exact absurd (List.cons.inj heq).1 (hc.kept.ne (.inr (by decide)))
    · rfl

theorem splitSign_signed (negative : Bool) (hplain : ∀ c ∈ cs, IsPlain c) :
    splitSign ((signText negative).toList ++ cs) = (negative, cs) := by
  cases negative with
  | false => exact splitSign_eq hplain
  | true => rfl

theorem ofList_ne_of_plain (name : String) {d : Char} {ds : List Char}
    (hplain : ∀ c ∈ cs, IsPlain c) (hname : name.toList = d :: ds)
    (hd : 57 < d.toNat ∨ d.toNat < 45) : String.ofList cs ≠ name := by
  rintro rfl
  rw [String.toList_ofList] at hname
  exact (hplain d (hname ▸ List.mem_cons_self)).kept.ne hd rfl

theorem dropUnderscores_eq (hkept : ∀ c ∈ cs, IsKept c) (afterDigit : Bool) :
    dropUnderscores afterDigit cs = some cs := by
  induction cs generalizing afterDigit with
  | nil => rfl
  | cons c cs ih =>
    obtain ⟨hc, hcs⟩ := List.forall_mem_cons.mp hkept
    have hne : c ≠ '_' := hc.ne (.inl (by decide))
    rw [dropUnderscores, if_neg hne, ih hcs]
    · rfl
    · rintro _ _ rfl
      exact fun _ => hne rfl

theorem dropWhile_blank (hkept : ∀ c ∈ cs, IsKept c) : cs.dropWhile isNumeralBlank = cs := by
  cases cs with
  | nil => rfl
  | cons c cs => rw [List.dropWhile_cons, (hkept c List.mem_cons_self).not_blank]; rfl

/-- A text of digits, points and minus signs is its own plain spelling. -/
theorem plainSpelling_eq (hkept : ∀ c ∈ cs, IsKept c) :
    plainSpelling (String.ofList cs) = some cs := by
  have hascii : cs.map asciiForm = cs :=
    (List.map_congr_left fun c hc => (hkept c hc).asciiForm_eq).trans (List.map_id _)
  have hreverse : ∀ c ∈ cs.reverse, IsKept c := fun c hc => hkept c (List.mem_reverse.mp hc)
  rw [plainSpelling, String.toList_ofList, hascii, dropWhile_blank hkept]
  rw [dropWhile_blank hreverse, List.reverse_reverse, dropUnderscores_eq hkept]

theorem isKept_of_mem_signed {negative : Bool} (hplain : ∀ c ∈ cs, IsPlain c)
    (hc : c ∈ (signText negative).toList ++ cs) : IsKept c := by
  rcases List.mem_append.mp hc with hc | hc
  · cases negative with
    | false => cases hc
    | true =>
      obtain rfl : c = '-' := List.mem_singleton.mp hc
      exact ⟨by decide, by decide⟩
  · exact (hplain c hc).kept

end Plain

/-- Digits around a point, if there are any behind it. -/
def pointedText (whole fraction : List Char) : List Char :=
  whole ++ if fraction.isEmpty then [] else '.' :: fraction

theorem ofList_pointedText (whole fraction : List Char) :
    String.ofList (pointedText whole fraction) =
      String.ofList whole ++ if fraction.isEmpty then "" else "." ++ String.ofList fraction := by
  rw [pointedText, String.ofList_append]
  cases fraction with
  | nil => rfl
  | cons d ds =>
    refine congrArg (String.ofList whole ++ ·) (String.toList_inj.mp ?_)
    simp

theorem isPlain_of_mem_pointedText {whole fraction : List Char}
    (hwhole : ∀ c ∈ whole, isAsciiDigit c = true)
    (hfraction : ∀ c ∈ fraction, isAsciiDigit c = true) :
    ∀ c ∈ pointedText whole fraction, IsPlain c := by
  intro c hc
  rcases List.mem_append.mp hc with hc | hc
  · exact .inl (hwhole c hc)
  · split at hc
    · cases hc
    · rcases List.mem_cons.mp hc with rfl | hc
      · exact .inr rfl
      · exact .inl (hfraction c hc)

/-- Digits around a point are read as the number they spell, after a sign as its negative. -/
theorem readNumber_pointedText (negative : Bool) {whole fraction : List Char} (hne : whole ≠ [])
    (hwhole : ∀ c ∈ whole, isAsciiDigit c = true)
    (hfraction : ∀ c ∈ fraction, isAsciiDigit c = true) :
    readNumber (signText negative ++ String.ofList (pointedText whole fraction)) =
      some (nearest negative (digitsValue (whole ++ fraction)) (-(fraction.length : Int))) := by
  have hplain := isPlain_of_mem_pointedText hwhole hfraction
  have hlower : (pointedText whole fraction).map Char.toLower = pointedText whole fraction :=
    (List.map_congr_left fun c hc => (hplain c hc).toLower_eq).trans (List.map_id _)
  have hsigned : signText negative ++ String.ofList (pointedText whole fraction) =
      String.ofList ((signText negative).toList ++ pointedText whole fraction) := by
    rw [String.ofList_append, String.ofList_toList]
  have hkept : ∀ c ∈ (signText negative).toList ++ pointedText whole fraction, IsKept c :=
    fun c => isKept_of_mem_signed hplain
  have hnan := ofList_ne_of_plain "nan" hplain rfl (.inl (by decide))
  have hinf := ofList_ne_of_plain "inf" hplain rfl (.inl (by decide))
  have hinfinity := ofList_ne_of_plain "infinity" hplain rfl (.inl (by decide))
  have hwholly : whole.isEmpty = false := List.isEmpty_eq_false_iff.mpr hne
  simp only [readNumber, hsigned, plainSpelling_eq hkept, splitSign_signed negative hplain, hlower,
    hnan, hinf, hinfinity, Option.bind_eq_bind, Option.bind_some, if_false]
  cases fraction with
  | nil =>
    have htext : pointedText whole [] = whole := List.append_nil _
    have htake : whole.takeWhile isAsciiDigit = whole := List.takeWhile_eq_self_iff.mpr hwhole
    have hdrop : whole.dropWhile isAsciiDigit = [] := List.dropWhile_eq_nil_iff.mpr hwhole
    simp [htext, htake, hdrop, hwholly, readExponent]
  | cons d ds =>
    have htext : pointedText whole (d :: ds) = whole ++ '.' :: d :: ds := rfl
    have htake : (whole ++ '.' :: d :: ds).takeWhile isAsciiDigit = whole := by
      rw [List.takeWhile_append_of_pos hwhole]
      exact List.append_nil _
    have hdrop : (whole ++ '.' :: d :: ds).dropWhile isAsciiDigit = '.' :: d :: ds := by
      rw [List.dropWhile_append_of_pos hwhole]
      rfl
    have htake' : (d :: ds).takeWhile isAsciiDigit = d :: ds :=
      List.takeWhile_eq_self_iff.mpr hfraction
    have hdrop' : (d :: ds).dropWhile isAsciiDigit = [] := List.dropWhile_eq_nil_iff.mpr hfraction
    simp [htext, htake, hdrop, htake', hdrop', hwholly, readExponent]

section Above

theorem zero_lt_ofUnits {num den : Nat} :
    0 < Binary64.ofUnits false num den ↔ nearestMagnitude num den ≠ 0 := by
  unfold Binary64.ofUnits
  split
  · rename_i h
    rw [Binary64.lt_iff_value Binary64.isFinite_zero rfl, Binary64.value_zero,
      Binary64.value_finite, div_pos_iff_of_pos_right Binary64.cast_unitsPerOne_pos, Nat.cast_pos,
      Nat.pos_iff_ne_zero]
  · rename_i h
    have hpos := magnitudeBound_pos
    exact iff_of_true (by decide +kernel) (by omega)

theorem zero_lt_ofFraction {n places : Nat} (hp : places ≤ 10) (hn : n ≠ 0) :
    0 < Binary64.ofFraction false n (10 ^ places) := by
  have hten : 10 ^ places ≤ 10 ^ 10 := Nat.pow_le_pow_right (by decide) hp
  have hone : 10 ^ 10 ≤ unitsPerOne := by decide +kernel
  have hle := hten.trans (hone.trans (Nat.le_mul_of_pos_left unitsPerOne (Nat.pos_of_ne_zero hn)))
  have hquotient := (Nat.div_pos hle (Nat.pow_pos (by decide))).ne'
  exact zero_lt_ofUnits.mpr (Binary64.nearestMagnitude_ne_zero hquotient)

theorem zero_lt_nearest {n places : Nat} (hp : places ≤ 10) :
    0 < nearest false n (-(places : Int)) ↔ n ≠ 0 := by
  unfold nearest
  dsimp only
  by_cases hn : n = 0
  · rw [if_pos (.inl hn)]
    exact iff_of_false (by decide +kernel) (not_not.mpr hn)
  · have hlow : ¬ (n = 0 ∨ -(places : Int) + (digits n).length < -400) := by omega
    rw [if_neg hlow]
    refine iff_of_true ?_ hn
    split
    · decide +kernel
    · split
      · rw [Int.neg_neg, Int.toNat_natCast, Nat.pow_eq]
        exact zero_lt_ofFraction hp hn
      · obtain rfl : places = 0 := by omega
        have hpower : n * Nat.pow 10 (-((0 : Nat) : Int)).toNat = n := Nat.mul_one n
        rw [hpower, ← Nat.pow_zero 10]
        exact zero_lt_ofFraction hp hn

end Above

/-- Digits without the zeros behind them. -/
def trimZeros (ds : List Char) : List Char := (ds.reverse.dropWhile (· = '0')).reverse

theorem exists_trimZeros (ds : List Char) :
    ∃ zeros, ds = trimZeros ds ++ List.replicate zeros '0' := by
  refine ⟨(ds.reverse.takeWhile (· = '0')).length, ?_⟩
  have hzeros : (ds.reverse.takeWhile (· = '0')).reverse =
      List.replicate (ds.reverse.takeWhile (· = '0')).length '0' := by
    rw [List.eq_replicate_iff, List.length_reverse]
    refine ⟨rfl, fun c hc => ?_⟩
    simpa using List.mem_takeWhile_imp (List.mem_reverse.mp hc)
  rw [trimZeros, ← hzeros, ← List.reverse_append, List.takeWhile_append_dropWhile,
    List.reverse_reverse]

theorem getLast_trimZeros_ne {ds : List Char} (h : trimZeros ds ≠ []) :
    (trimZeros ds).getLast h ≠ '0' := by
  have hlast := List.rdropWhile_last_not (fun c => decide (c = '0')) ds h
  exact fun heq => hlast (decide_eq_true heq)

theorem mem_of_mem_trimZeros {ds : List Char} {c : Char} (h : c ∈ trimZeros ds) : c ∈ ds := by
  obtain ⟨zeros, hzeros⟩ := exists_trimZeros ds
  rw [hzeros]
  exact List.mem_append_left _ h

/-- The places that are printed of so many thousandths. -/
def printedPlaces (n : Nat) : List Char := trimZeros (paddedDigits 3 (n % 1000))

theorem isAsciiDigit_of_mem_printedPlaces {n : Nat} {c : Char} (h : c ∈ printedPlaces n) :
    isAsciiDigit c = true :=
  isAsciiDigit_of_mem_paddedDigits (mem_of_mem_trimZeros h)

/-- The zeros that are left out only multiply. -/
theorem exists_printedPlaces (n : Nat) : ∃ zeros, (printedPlaces n).length + zeros = 3 ∧
    n = digitsValue (digits (n / 1000) ++ printedPlaces n) * 10 ^ zeros := by
  have hlength : (paddedDigits 3 (n % 1000)).length = 3 :=
    length_paddedDigits (by decide) (Nat.mod_lt n (by decide))
  have hvalue : digitsValue (digits (n / 1000) ++ paddedDigits 3 (n % 1000)) = n :=
    digitsValue_placed (show 0 < 3 by decide) n
  obtain ⟨zeros, hzeros⟩ := exists_trimZeros (paddedDigits 3 (n % 1000))
  rw [hzeros, List.length_append, List.length_replicate] at hlength
  rw [hzeros, ← List.append_assoc, digitsValue_append, digitsValue_zeros, List.length_replicate,
    Nat.add_zero] at hvalue
  exact ⟨zeros, hlength, hvalue.symm⟩

theorem length_printedPlaces_le (n : Nat) : (printedPlaces n).length ≤ 3 := by
  obtain ⟨zeros, hlength, -⟩ := exists_printedPlaces n
  omega

theorem compact_finite (negative : Bool) {u : Nat} (hu : Representable u) :
    compact (.finite negative u hu) = signText (negative && scaled 3 u != 0) ++
      String.ofList (pointedText (digits (scaled 3 u / 1000)) (printedPlaces (scaled 3 u))) := by
  rw [ofList_pointedText, ← String.append_assoc]
  rfl

/-- What is printed of a number is above zero exactly if it counts a thousandth. -/
theorem zero_lt_readNumber_compact {u : Nat} (hu : Representable u) :
    ∃ x, readNumber (compact (.finite false u hu)) = some x ∧ (0 < x ↔ scaled 3 u ≠ 0) := by
  rw [compact_finite, Bool.false_and]
  generalize scaled 3 u = n
  obtain ⟨zeros, hlength, hmultiple⟩ := exists_printedPlaces n
  refine ⟨_, readNumber_pointedText false (digits_ne_nil _)
    (fun c => isAsciiDigit_of_mem_digits) (fun c => isAsciiDigit_of_mem_printedPlaces), ?_⟩
  have hzero : n = 0 ↔ digitsValue (digits (n / 1000) ++ printedPlaces n) = 0 := by
    conv_lhs => rw [hmultiple]
    rw [Nat.mul_eq_zero, or_iff_left (pow_ne_zero zeros (by decide))]
  rw [zero_lt_nearest (by omega), ne_eq, ne_eq, hzero]

end Decimal
end PatternLoom
