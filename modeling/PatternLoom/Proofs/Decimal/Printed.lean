import Mathlib
import PatternLoom.Decimal.Numeral
import PatternLoom.Proofs.Binary64.Nearest

/-! Numbers that are printed to a fixed count of places and read again. The digits around
the point spell one integer, and reading them gives the number that rounding to that many
places gives. -/

namespace PatternLoom
namespace Decimal

theorem digitsValue_append_singleton (ds : List Char) (c : Char) :
    digitsValue (ds ++ [c]) = digitsValue ds * 10 + (c.toNat - '0'.toNat) := by
  rw [digitsValue, List.foldl_append]
  rfl

theorem digitsValue_append (ds es : List Char) :
    digitsValue (ds ++ es) = digitsValue ds * 10 ^ es.length + digitsValue es := by
  induction es using List.reverseRecOn with
  | nil => simp [digitsValue]
  | append_singleton es c ih =>
    rw [← List.append_assoc, digitsValue_append_singleton, digitsValue_append_singleton, ih,
      List.length_append, List.length_singleton, pow_succ]
    ring

theorem digitsValue_digits (n : Nat) : digitsValue (digits n) = n := by
  have hfold : digitsValue (digits n) = Nat.ofDigitChars 10 (digits n) 0 := by
    simp only [digitsValue, Nat.ofDigitChars, Nat.mul_comm 10]
  rw [hfold, digits, Nat.ofDigitChars_toDigits (by decide) (by decide)]

theorem digitsValue_zeros (n : Nat) : digitsValue (List.replicate n '0') = 0 := by
  induction n with
  | zero => rfl
  | succ n ih =>
    rw [List.replicate_succ', digitsValue_append_singleton, ih]
    rfl

theorem digitsValue_paddedDigits (width n : Nat) : digitsValue (paddedDigits width n) = n := by
  rw [paddedDigits, digitsValue_append, digitsValue_zeros, digitsValue_digits, Nat.zero_mul,
    Nat.zero_add]

theorem length_digits_le {n k : Nat} (hk : 0 < k) (h : n < 10 ^ k) : (digits n).length ≤ k :=
  Nat.toDigits_length 10 n k hk h

theorem length_paddedDigits {width n : Nat} (hw : 0 < width) (h : n < 10 ^ width) :
    (paddedDigits width n).length = width := by
  have hlength := length_digits_le hw h
  rw [paddedDigits, List.length_append, List.length_replicate]
  omega

theorem digits_ne_nil (n : Nat) : digits n ≠ [] := Nat.toDigits_ne_nil

theorem digits_eq (n : Nat) : digits n =
    if n < 10 then [Nat.digitChar n] else digits (n / 10) ++ [Nat.digitChar (n % 10)] :=
  Nat.toDigits_eq_if (by decide)

/-- No zero stands ahead of other digits. -/
theorem head_digits_ne_zero {n : Nat} (hn : n ≠ 0) : (digits n).head (digits_ne_nil n) ≠ '0' := by
  induction n using Nat.strong_induction_on with
  | _ n ih =>
    rcases Nat.lt_or_ge n 10 with hlt | hge
    · have hdigit : ∀ d < 10, d ≠ 0 → Nat.digitChar d ≠ '0' := by decide
      simpa only [digits_eq n, if_pos hlt, List.head_cons] using hdigit n hlt hn
    · have htens := ih (n / 10) (by omega) (by omega)
      simpa only [digits_eq n, if_neg (Nat.not_lt.mpr hge),
        List.head_append_of_ne_nil (digits_ne_nil (n / 10))] using htens

theorem isAsciiDigit_of_mem_digits {n : Nat} {c : Char} (h : c ∈ digits n) :
    isAsciiDigit c = true := by
  have hdigit : 48 ≤ c.val ∧ c.val ≤ 57 := by
    simpa [Char.isDigit] using Nat.isDigit_of_mem_toDigits (by decide) (by decide) h
  rw [isAsciiDigit, Bool.and_eq_true, decide_eq_true_eq, decide_eq_true_eq]
  exact hdigit

theorem isAsciiDigit_of_mem_paddedDigits {width n : Nat} {c : Char}
    (h : c ∈ paddedDigits width n) : isAsciiDigit c = true := by
  rcases List.mem_append.mp h with h | h
  · rw [List.eq_of_mem_replicate h]
    decide
  · exact isAsciiDigit_of_mem_digits h

/-- The digits of whole and fraction together spell the number of units in the last place. -/
theorem digitsValue_placed {places : Nat} (hp : 0 < places) (n : Nat) :
    digitsValue (digits (n / 10 ^ places) ++ paddedDigits places (n % 10 ^ places)) = n := by
  have hlt := Nat.mod_lt n (Nat.pow_pos (n := places) (show 0 < 10 by decide))
  rw [digitsValue_append, digitsValue_digits, digitsValue_paddedDigits,
    length_paddedDigits hp hlt, Nat.mul_comm, Nat.div_add_mod]

theorem toList_placedText {places : Nat} (hp : 0 < places) (n : Nat) :
    (placedText places n).toList =
      digits (n / 10 ^ places) ++ '.' :: paddedDigits places (n % 10 ^ places) := by
  simp only [placedText, if_neg hp.ne', Nat.pow_eq]
  simp

theorem placedText_injective {places : Nat} (hp : 0 < places) :
    Function.Injective (placedText places) := by
  intro m n h
  have hlength : ∀ n, (paddedDigits places (n % 10 ^ places)).length = places := fun n =>
    length_paddedDigits hp (Nat.mod_lt n (Nat.pow_pos (by decide)))
  have htext := congrArg String.toList h
  rw [toList_placedText hp, toList_placedText hp] at htext
  obtain ⟨hwhole, hfraction⟩ := List.append_inj' htext (by
    rw [List.length_cons, List.length_cons, hlength, hlength])
  rw [← digitsValue_placed hp m, ← digitsValue_placed hp n, hwhole, (List.cons.inj hfraction).2]

theorem ofFraction_zero (negative : Bool) (den : Nat) :
    Binary64.ofFraction negative 0 den = .zero negative := by
  have hzero : nearestMagnitude (0 * unitsPerOne) den = 0 := by
    rw [Nat.zero_mul, nearestMagnitude_zero]
  simp only [Binary64.ofFraction, Binary64.ofUnits, hzero, magnitudeBound_pos, dif_pos]
  rfl

/-- Within a wide range the shortcuts for far exponents are not taken. -/
theorem nearest_of_lt {places n : Nat} (negative : Bool) (hp : places ≤ 400)
    (h : n < 10 ^ (400 + places)) :
    nearest negative n (-(places : Int)) = .ofFraction negative n (10 ^ places) := by
  have hlength := length_digits_le (by omega) h
  unfold nearest
  dsimp only
  by_cases hn : n = 0
  · rw [if_pos (.inl hn), hn, ofFraction_zero]
  · have hlow : ¬ (n = 0 ∨ -(places : Int) + (digits n).length < -400) := by omega
    have hhigh : ¬ 400 < -(places : Int) + (digits n).length := by omega
    rw [if_neg hlow, if_neg hhigh]
    split
    · rw [Int.neg_neg, Int.toNat_natCast]
      rfl
    · obtain rfl : places = 0 := by omega
      exact congrArg (Binary64.ofFraction negative · 1) (Nat.mul_one n)

theorem pointed_placed {places n : Nat} (hp : 0 < places) (hp' : places ≤ 400)
    (h : n < 10 ^ (400 + places)) :
    pointed (digits (n / 10 ^ places)) (paddedDigits places (n % 10 ^ places)) =
      .ofFraction false n (10 ^ places) := by
  have hlt := Nat.mod_lt n (Nat.pow_pos (n := places) (show 0 < 10 by decide))
  rw [pointed, digitsValue_placed hp, length_paddedDigits hp hlt, nearest_of_lt false hp' h]

theorem magnitudeBound_lt : magnitudeBound + unitsPerOne < 10 ^ 400 * unitsPerOne := by
  decide +kernel

theorem scaled_lt {u : Nat} (hu : Representable u) (places : Nat) :
    scaled places u < 10 ^ (400 + places) := by
  have hpos := unitsPerOne_pos
  have hpow : 0 < 10 ^ places := Nat.pow_pos (by decide)
  refine (nearestEven_le _ _).trans_lt ?_
  have hlt : u * 10 ^ places + unitsPerOne < 10 ^ (400 + places) * unitsPerOne :=
    calc u * 10 ^ places + unitsPerOne
        ≤ (u + unitsPerOne) * 10 ^ places := by
          rw [Nat.add_mul]
          exact Nat.add_le_add_left (Nat.le_mul_of_pos_right _ hpow) _
      _ < 10 ^ 400 * unitsPerOne * 10 ^ places := by
          refine Nat.mul_lt_mul_of_pos_right ?_ hpow
          have hbound := magnitudeBound_lt
          have hmag := hu.1
          omega
      _ = 10 ^ (400 + places) * unitsPerOne := by
          rw [Nat.pow_add, Nat.mul_right_comm]
  rw [← Nat.add_div_right _ hpos]
  exact (Nat.div_lt_iff_lt_mul hpos).mpr hlt

/-- A number that is not negative is printed as digits around a point, and these read as the
number rounded to that many places. -/
theorem fixed_eq_digits {places u : Nat} (hp : 0 < places) (hp' : places ≤ 400)
    (hu : Representable u) : ∃ whole fraction : List Char,
      (fixed places (.finite false u hu)).toList = whole ++ '.' :: fraction ∧ whole ≠ [] ∧
      fraction ≠ [] ∧ (∀ c ∈ whole, isAsciiDigit c = true) ∧
      (∀ c ∈ fraction, isAsciiDigit c = true) ∧
      pointed whole fraction = roundTo places (.finite false u hu) := by
  have hlt := Nat.mod_lt (scaled places u) (Nat.pow_pos (n := places) (show 0 < 10 by decide))
  refine ⟨digits (scaled places u / 10 ^ places),
    paddedDigits places (scaled places u % 10 ^ places), ?_, digits_ne_nil _, ?_,
    fun _ => isAsciiDigit_of_mem_digits, fun _ => isAsciiDigit_of_mem_paddedDigits,
    pointed_placed hp hp' (scaled_lt hu places)⟩
  · rw [← toList_placedText hp]
    simp [fixed, signText]
  · rw [← List.length_pos_iff, length_paddedDigits hp hlt]
    exact hp

/-- What prints alike has as many units in the last place. -/
theorem scaled_eq_of_fixed {places u v : Nat} (hp : 0 < places) {hu : Representable u}
    {hv : Representable v}
    (h : fixed places (.finite false u hu) = fixed places (.finite false v hv)) :
    scaled places u = scaled places v :=
  placedText_injective hp ((String.append_right_inj _).mp h)

end Decimal

section Integers

theorem toList_toString (n : Nat) : (toString n).toList = Decimal.digits n := Nat.toList_repr

theorem toList_toString_int (n : Int) :
    (0 ≤ n ∧ (toString n).toList = Decimal.digits n.toNat) ∨
      n < 0 ∧ (toString n).toList = '-' :: Decimal.digits n.natAbs := by
  cases n with
  | ofNat m => exact .inl ⟨Int.natCast_nonneg m, toList_toString m⟩
  | negSucc m =>
    refine .inr ⟨Int.negSucc_lt_zero m, ?_⟩
    change ("-" ++ toString (m + 1)).toList = _
    rw [String.toList_append, toList_toString]
    rfl

theorem mem_toString_int {n : Int} {c : Char} (h : c ∈ (toString n).toList) :
    c = '-' ∨ isAsciiDigit c = true := by
  rcases toList_toString_int n with ⟨_, htext⟩ | ⟨_, htext⟩
  · rw [htext] at h
    exact .inr (Decimal.isAsciiDigit_of_mem_digits h)
  · rw [htext] at h
    exact (List.mem_cons.mp h).imp_right Decimal.isAsciiDigit_of_mem_digits

end Integers

end PatternLoom
