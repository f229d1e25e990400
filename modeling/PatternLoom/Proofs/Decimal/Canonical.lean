import Mathlib
import PatternLoom.Proofs.Decimal.Compact

/-! Numbers are printed as canonical decimals. The text is within half of the last place of the
number, and the number nearest to the text is no farther from it, so it counts as many thousandths
and prints alike. -/

namespace PatternLoom

/-- A finite number that no other one is nearer to the value than. -/
structure Binary64.IsNearest (y : Binary64) (v : ℚ) : Prop where
  isFinite : y.isFinite
  le : ∀ x : Binary64, x.isFinite → |y.value - v| ≤ |x.value - v|

namespace Decimal

section Signs

/-- A value behind its sign. -/
def signed (negative : Bool) (v : ℚ) : ℚ := if negative then -v else v

variable {negative b : Bool} {u w : Nat}

theorem abs_signed_sub (negative : Bool) (v v' : ℚ) :
    |signed negative v - signed negative v'| = |v - v'| := by
  cases negative with
  | false => rfl
  | true => exact (congrArg abs (neg_sub_neg v v')).trans (abs_sub_comm v' v)

theorem signed_bne (negative b : Bool) (v : ℚ) :
    signed (b != negative) v = signed negative (signed b v) := by
  cases negative <;> cases b <;> simp [signed]

theorem signed_signed (negative : Bool) (v : ℚ) : signed negative (signed negative v) = v := by
  cases negative <;> simp [signed]

theorem value_finite_signed (negative : Bool) (hu : Representable u) :
    (Binary64.finite negative u hu).value = signed negative (u / unitsPerOne) := by
  cases negative with
  | false => exact Binary64.value_finite hu
  | true => exact Binary64.value_finite_true hu

/-- The sign of a ratio does not matter for what is nearest to it. -/
theorem isNearest_ofFraction (negative : Bool) {m den : Nat} (hd : 0 < den)
    (h : (Binary64.ofFraction false m den).isFinite) :
    (Binary64.ofFraction negative m den).IsNearest (signed negative (m / den)) := by
  have hround := Binary64.isRounding_ofFraction m hd
  have hlt : nearestMagnitude (m * unitsPerOne) den < magnitudeBound := by
    by_contra hge
    rw [Binary64.ofFraction, Binary64.ofUnits, dif_neg hge] at h
    cases h
  have hrep := representable_nearestMagnitude hlt
  have hfinite : ∀ s, Binary64.ofFraction s m den = .finite s _ hrep := fun s =>
    Binary64.ofUnits_eq_finite hrep rfl
  rw [hfinite false] at hround
  rw [hfinite negative]
  refine ⟨rfl, fun x hx => ?_⟩
  obtain ⟨b, w, hw, rfl⟩ := Binary64.exists_finite hx
  have hnear := hround.abs_sub_le_abs rfl (x := .finite (b != negative) w hw) rfl
  rw [Binary64.value_finite, value_finite_signed, signed_bne] at hnear
  rw [value_finite_signed, value_finite_signed, abs_signed_sub]
  refine hnear.trans_eq ?_
  rw [← abs_signed_sub negative, signed_signed]

end Signs

section Nearer

attribute [local irreducible] unitsPerOne

variable {places u w : Nat}

theorem scaled_eq_of_nearer
    (h : |(w : ℚ) / unitsPerOne - scaled places u / 10 ^ places| ≤
      |(u : ℚ) / unitsPerOne - scaled places u / 10 ^ places|) :
    scaled places w = scaled places u := by
  have hone := Binary64.cast_unitsPerOne_pos
  have hten : (0 : ℚ) < 10 ^ places := by positivity
  have hscale : ∀ a : Nat, |(a : ℚ) / unitsPerOne - scaled places u / 10 ^ places| *
      (unitsPerOne * 10 ^ places) =
        (((a * 10 ^ places : Nat) : Int) - (scaled places u * unitsPerOne : Nat)).natAbs := by
    intro a
    have hpos := mul_pos hone hten
    rw [← abs_of_pos hpos, ← abs_mul, Nat.cast_natAbs, Int.cast_abs]
    congr 1
    push_cast
    field_simp
  have hunits := mul_le_mul_of_nonneg_right h (mul_pos hone hten).le
  rw [hscale, hscale] at hunits
  exact nearestEven_eq_of_nearer unitsPerOne_pos (Nat.cast_le.mp hunits)

variable {negative b : Bool} {hu : Representable u} {hw : Representable w}

/-- On the other side of zero nothing is nearer, unless both count as zero. -/
theorem scaled_eq_zero_of_nearer
    (h : |(Binary64.finite (true != negative) w hw).value - signed negative (scaled 3 u / 10 ^ 3)| ≤
      |(Binary64.finite negative u hu).value - signed negative (scaled 3 u / 10 ^ 3)|) :
    scaled 3 u = 0 ∧ scaled 3 w = 0 := by
  have hone := Binary64.cast_unitsPerOne_pos
  have hcount := abs_scaled_sub_le 3 hu
  rw [value_finite_signed, value_finite_signed, signed_bne, abs_signed_sub, abs_signed_sub] at h
  rw [Binary64.value_finite] at hcount
  have hw0 : (0 : ℚ) ≤ w / unitsPerOne := by positivity
  have hn0 : (0 : ℚ) ≤ scaled 3 u := Nat.cast_nonneg _
  have hside : |signed true ((w : ℚ) / unitsPerOne) - scaled 3 u / 10 ^ 3| =
      (w : ℚ) / unitsPerOne + scaled 3 u / 10 ^ 3 := by
    rw [signed, if_pos rfl, ← neg_add', abs_neg, abs_of_nonneg (by positivity)]
  rw [hside] at h
  obtain ⟨hlow, hhigh⟩ := abs_le.mp hcount
  have hzero : scaled 3 u = 0 := by
    by_contra hne
    have hpos : (1 : ℚ) ≤ scaled 3 u := by exact_mod_cast Nat.pos_of_ne_zero hne
    have hfar : |(u : ℚ) / unitsPerOne - scaled 3 u / 10 ^ 3| ≤ 1 / 2 / 10 ^ 3 :=
      abs_le.mpr ⟨by linarith, by linarith⟩
    linarith
  refine ⟨hzero, Nat.le_zero.mp ((scaled_mono 3 ?_).trans_eq hzero)⟩
  rw [hzero, Nat.cast_zero, zero_div, add_zero, sub_zero, abs_of_nonneg (by positivity),
    div_le_div_iff_of_pos_right hone] at h
  exact_mod_cast h

/-- What is nearer to a printed value than the number was prints alike. -/
theorem compact_eq_of_nearer
    (h : |(Binary64.finite b w hw).value - signed negative (scaled 3 u / 10 ^ 3)| ≤
      |(Binary64.finite negative u hu).value - signed negative (scaled 3 u / 10 ^ 3)|) :
    compact (.finite b w hw) = compact (.finite negative u hu) := by
  rw [compact_finite, compact_finite]
  rcases eq_or_ne b negative with rfl | hne
  · rw [value_finite_signed, value_finite_signed, abs_signed_sub, abs_signed_sub] at h
    rw [scaled_eq_of_nearer h]
  · obtain rfl : b = (true != negative) := by
      revert hne
      cases b <;> cases negative <;> decide
    obtain ⟨hzero, hzero'⟩ := scaled_eq_zero_of_nearer h
    rw [hzero, hzero', bne_self_eq_false, Bool.and_false, Bool.and_false]

end Nearer

/-- A decimal in its one shortest form. The whole part is a zero or does not begin with one, a point
is only written before one to three digits of which the last is no zero, and zero has no sign. -/
structure Canonical where
  negative : Bool
  whole : List Char
  fraction : List Char
  whole_ne_nil : whole ≠ []
  isDigit_whole : ∀ c ∈ whole, isAsciiDigit c = true
  isDigit_fraction : ∀ c ∈ fraction, isAsciiDigit c = true
  head_whole : whole.head whole_ne_nil = '0' → whole = ['0']
  length_fraction : fraction.length ≤ 3
  getLast_fraction : ∀ h : fraction ≠ [], fraction.getLast h ≠ '0'
  counts_of_negative : negative = true → digitsValue (whole ++ fraction) ≠ 0

namespace Canonical

def text (d : Canonical) : String :=
  signText d.negative ++ String.ofList (pointedText d.whole d.fraction)

/-- How many units of the last place it counts. -/
def count (d : Canonical) : Nat := digitsValue (d.whole ++ d.fraction)

def value (d : Canonical) : ℚ := signed d.negative (d.count / 10 ^ d.fraction.length)

theorem text_ne_negative_zero (d : Canonical) : d.text ≠ "-0" := by
  intro h
  have hlist := congrArg String.toList h
  rw [text, String.toList_append, String.toList_ofList] at hlist
  have hplain := isPlain_of_mem_pointedText d.isDigit_whole d.isDigit_fraction
  cases hnegative : d.negative with
  | false =>
    rw [hnegative] at hlist
    have hminus : '-' ∈ pointedText d.whole d.fraction := by
      change pointedText d.whole d.fraction = ['-', '0'] at hlist
      rw [hlist]
      exact List.mem_cons_self
    exact (hplain '-' hminus).ne_minus rfl
  | true =>
    rw [hnegative] at hlist
    have hzero : pointedText d.whole d.fraction = ['0'] := (List.cons.inj hlist).2
    have hcounts := d.counts_of_negative hnegative
    have hne := List.length_pos_iff.mpr d.whole_ne_nil
    have hlength := congrArg List.length hzero
    rw [pointedText, List.length_append, List.length_singleton] at hlength
    have hfraction : d.fraction = [] := by
      by_contra hsome
      rw [if_neg (by simpa using hsome), List.length_cons] at hlength
      omega
    rw [pointedText, hfraction] at hzero
    have hwhole : d.whole = ['0'] := (List.append_nil _).symm.trans hzero
    rw [hfraction, hwhole] at hcounts
    exact hcounts rfl

theorem readNumber_text (d : Canonical) :
    readNumber d.text = some (nearest d.negative d.count (-(d.fraction.length : Int))) :=
  readNumber_pointedText d.negative d.whole_ne_nil d.isDigit_whole d.isDigit_fraction

end Canonical

/-- So many thousandths as a canonical decimal. -/
def ofThousandths (negative : Bool) (n : Nat) : Canonical where
  negative := negative && n != 0
  whole := digits (n / 1000)
  fraction := printedPlaces n
  whole_ne_nil := digits_ne_nil _
  isDigit_whole := fun _ => isAsciiDigit_of_mem_digits
  isDigit_fraction := fun _ => isAsciiDigit_of_mem_printedPlaces
  head_whole := by
    intro hhead
    have hzero : n / 1000 = 0 := by
      by_contra hne
      exact head_digits_ne_zero hne hhead
    rw [hzero]
    rfl
  length_fraction := length_printedPlaces_le n
  getLast_fraction := fun h => getLast_trimZeros_ne h
  counts_of_negative := by
    intro hnegative hcount
    obtain ⟨zeros, -, hmultiple⟩ := exists_printedPlaces n
    rw [hcount, Nat.zero_mul] at hmultiple
    rw [hmultiple, bne_self_eq_false, Bool.and_false] at hnegative
    cases hnegative

section Thousandths

variable (negative : Bool) (n : Nat)

theorem count_ofThousandths : ∃ zeros, (ofThousandths negative n).fraction.length + zeros = 3 ∧
    n = (ofThousandths negative n).count * 10 ^ zeros :=
  exists_printedPlaces n

theorem ratio_ofThousandths : ((ofThousandths negative n).count : ℚ) /
    10 ^ (ofThousandths negative n).fraction.length = n / 10 ^ 3 := by
  obtain ⟨zeros, hlength, hmultiple⟩ := count_ofThousandths negative n
  have hcast : (n : ℚ) = (ofThousandths negative n).count * 10 ^ zeros := by exact_mod_cast hmultiple
  rw [hcast, ← hlength, pow_add, mul_div_mul_right _ _ (by positivity)]

theorem value_ofThousandths : (ofThousandths negative n).value = signed negative (n / 10 ^ 3) := by
  rw [Canonical.value, ratio_ofThousandths]
  change signed (negative && n != 0) _ = _
  by_cases hn : n = 0
  · rw [hn]
    cases negative <;> simp [signed]
  · rw [bne_iff_ne.mpr hn, Bool.and_true]

theorem compact_eq_text {u : Nat} (hu : Representable u) :
    compact (.finite negative u hu) = (ofThousandths negative (scaled 3 u)).text :=
  compact_finite negative hu

/-- The text is read as the number nearest to it. -/
theorem isNearest_readNumber {u : Nat} (hu : Representable u) :
    ∃ y, readNumber (ofThousandths negative (scaled 3 u)).text = some y ∧
      y.IsNearest (ofThousandths negative (scaled 3 u)).value := by
  obtain ⟨zeros, hlength, hmultiple⟩ := count_ofThousandths negative (scaled 3 u)
  have hratio := ratio_ofThousandths negative (scaled 3 u)
  have hlt := scaled_lt hu 3
  have hround := isRounding_scaled 3 hu
  rw [Canonical.readNumber_text, Canonical.value]
  generalize ofThousandths negative (scaled 3 u) = d at hlength hmultiple hratio ⊢
  have hten : 0 < 10 ^ d.fraction.length := Nat.pow_pos (by decide)
  have hrange : d.count < 10 ^ (400 + d.fraction.length) := by
    rw [hmultiple, ← hlength, ← Nat.add_assoc, Nat.pow_add _ _ zeros] at hlt
    exact Nat.lt_of_mul_lt_mul_right hlt
  have hsame := Binary64.isRounding_ofFraction d.count hten
  rw [Nat.cast_pow, Nat.cast_ofNat, hratio] at hsame
  have hfinite : (Binary64.ofFraction false d.count (10 ^ d.fraction.length)).isFinite := by
    rw [hsame.unique hround]
    exact isFinite_roundTo 3 rfl
  have hnearest := isNearest_ofFraction d.negative hten hfinite
  rw [Nat.cast_pow, Nat.cast_ofNat] at hnearest
  exact ⟨_, congrArg some (nearest_of_lt d.negative (by omega) hrange), hnearest⟩

theorem abs_value_ofThousandths_sub_le {u : Nat} (hu : Representable u) :
    |(ofThousandths negative (scaled 3 u)).value - (Binary64.finite negative u hu).value| ≤
      1 / 2000 := by
  have hcount := abs_scaled_sub_le 3 hu
  rw [Binary64.value_finite] at hcount
  rw [value_ofThousandths, value_finite_signed, abs_signed_sub]
  obtain ⟨hlow, hhigh⟩ := abs_le.mp hcount
  exact abs_le.mpr ⟨by linarith, by linarith⟩

end Thousandths

/-- Finite numbers are printed as canonical decimals, at most half of a thousandth away. The text is
read as a number that is nearest to it, and any such number is printed as the same text. -/
theorem compact_canonical {x : Binary64} (hx : x.isFinite) : ∃ d : Canonical,
    compact x = d.text ∧ d.text ≠ "-0" ∧ |d.value - x.value| ≤ 1 / 2000 ∧
      (∃ y, readNumber d.text = some y ∧ y.IsNearest d.value) ∧
      ∀ y : Binary64, y.IsNearest d.value → compact y = d.text := by
  cases x with
  | nan => cases hx
  | infinity _ => cases hx
  | finite negative u hu =>
    refine ⟨ofThousandths negative (scaled 3 u), compact_eq_text negative hu,
      Canonical.text_ne_negative_zero _, abs_value_ofThousandths_sub_le negative hu,
      isNearest_readNumber negative hu, fun y hy => ?_⟩
    have hnear := hy.le (.finite negative u hu) rfl
    rw [value_ofThousandths] at hnear
    cases y with
    | nan => cases hy.isFinite
    | infinity _ => cases hy.isFinite
    | finite b w hw => exact (compact_eq_of_nearer hnear).trans (compact_eq_text negative hu)

theorem threeTenths_canonical : (0.3 : Binary64).isFinite = true ∧ ∃ d : Canonical,
    compact 0.3 = d.text ∧ d.text ≠ "-0" ∧ |d.value - (0.3 : Binary64).value| ≤ 1 / 2000 ∧
      (∃ y, readNumber d.text = some y ∧ y.IsNearest d.value) ∧
      ∀ y : Binary64, y.IsNearest d.value → compact y = d.text :=
  ⟨by decide +kernel, compact_canonical (by decide +kernel)⟩

end Decimal
end PatternLoom
