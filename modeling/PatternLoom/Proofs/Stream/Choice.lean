import Mathlib
import PatternLoom.Proofs.Binary64.Scaling
import PatternLoom.Proofs.Result
import PatternLoom.Stream

/-! Which positions a choice reaches. A draw has 32 bits, but a choice scales it to the 53 bits of
the numbers and takes the remainder, so what it takes the remainder of is a multiple of `2^21`. No
position is chosen that is not a multiple of the greatest common divisor of `2^21` and the length. -/

namespace PatternLoom
namespace Stream

/-- The 32 bits that the stream draws next. -/
def word (s : Stream) : Nat := (mix s.advance.state).toNat

theorem word_lt (s : Stream) : s.word < 2 ^ 32 := UInt32.toNat_lt _

section Draws

theorem next_fst (s : Stream) : s.next.1 = .ofFraction false s.word (2 ^ 32) := by
  rw [next, word, Nat.pow_eq]

theorem resolution_eq : resolution = 2 ^ 53 := Nat.pow_eq

theorem value_next (s : Stream) : (s.next.1.Unsigned ∧ s.next.1.isFinite) ∧
    s.next.1.value = s.word / 2 ^ 32 := by
  rw [next_fst]
  exact Binary64.ofFraction_two_pow (s.word_lt.le.trans (by decide)) (by decide)

/-- A draw goes at most as far as `1 - 1 / 2 ^ 32`. -/
theorem next_bounds (s : Stream) : (s.next.1.Unsigned ∧ s.next.1.isFinite) ∧
    s.next.1.value ≤ 1 - 1 / 2 ^ 32 := by
  obtain ⟨hdraw, hvalue⟩ := s.value_next
  have hword : (s.word : ℚ) + 1 ≤ 2 ^ 32 := by exact_mod_cast s.word_lt
  refine ⟨hdraw, ?_⟩
  rw [hvalue, div_le_iff₀ (by norm_num)]
  linarith

theorem natAbs_units_draw_le (s : Stream) : s.next.1.units.natAbs ≤ unitsPerOne := by
  obtain ⟨⟨hunsigned, hfinite⟩, hle⟩ := s.next_bounds
  obtain ⟨u, hu, he⟩ := hunsigned.exists_magnitude hfinite
  rw [he] at hle ⊢
  rw [Binary64.value_finite, div_le_iff₀ Binary64.cast_unitsPerOne_pos] at hle
  have hone : (u : ℚ) ≤ unitsPerOne :=
    hle.trans (mul_le_of_le_one_left Binary64.cast_unitsPerOne_pos.le (by norm_num))
  exact_mod_cast hone

theorem isFinite_draw_mul (s : Stream) {y : Binary64} (hy : y.isFinite) :
    (s.next.1 * y).isFinite := by
  obtain ⟨⟨_, hfinite⟩, _⟩ := s.next_bounds
  rw [Binary64.isFinite_mul hfinite hy]
  have hlt : y.units.natAbs < overflow :=
    lt_of_lt_of_le (Nat.lt_add_of_pos_right halfSpacing_pos) (Binary64.natAbs_units_le hy)
  calc s.next.1.units.natAbs * y.units.natAbs
      ≤ unitsPerOne * y.units.natAbs := Nat.mul_le_mul_right _ (natAbs_units_draw_le s)
    _ < unitsPerOne * overflow := Nat.mul_lt_mul_of_pos_left hlt unitsPerOne_pos
    _ = overflow * unitsPerOne := Nat.mul_comm _ _

/-- A share of a count of options that a draw leaves is the place of one of them. -/
theorem floor_draw_mul (s : Stream) {n : Nat} (hn : 0 < n) {y : Binary64}
    (hy : Binary64.ofInt n = .ok y) : ∃ i : Nat, i < n ∧ (s.next.1 * y).floor = .ok (i : Int) := by
  obtain ⟨⟨hunsigned, hfinite⟩, hle⟩ := s.next_bounds
  have hyfin := Binary64.isFinite_of_ofInt hy
  have hcount := Binary64.isRounding_ofInt hy
  have hproduct := s.isFinite_draw_mul hyfin
  have hround := Binary64.isRounding_mul hunsigned hcount.unsigned hfinite hyfin
  have hfloor := Binary64.floor_eq_ok hproduct
  obtain ⟨hlow, _⟩ := Binary64.floor_le_value hfloor
  have hnonneg := (Binary64.le_floor_iff (n := 0) hfloor).mpr
    (by simpa using hround.unsigned.value_nonneg)
  obtain ⟨i, hi⟩ := Int.eq_ofNat_of_zero_le hnonneg
  rw [hi] at hfloor hlow
  refine ⟨i, ?_, hfloor⟩
  -- Both roundings together are far less than what the draw lacks of one.
  have hone : (1 : ℚ) ≤ n := by exact_mod_cast hn
  have hyle := (abs_le.mp (hcount.abs_sub_le hyfin (by linarith))).2
  have hzle := (abs_le.mp (hround.abs_sub_le_add hproduct)).2
  have hdraw := hunsigned.value_nonneg
  have hynonneg := hcount.unsigned.value_nonneg
  have hvalue : s.next.1.value * y.value ≤ (1 - 1 / 2 ^ 32) * (n + n / 2 ^ 53) :=
    mul_le_mul hle (by linarith) hynonneg (by norm_num)
  have hlt : (i : ℚ) < n := by
    push_cast at hlow
    norm_num at hlow hvalue hzle
    linarith
  exact_mod_cast hlt

theorem value_evenLimit (n : Nat) : ((evenLimit n).Unsigned ∧ (evenLimit n).isFinite) ∧
    (evenLimit n).value = (2 ^ 53 - 2 ^ 53 % n : Nat) / 2 ^ 53 := by
  rw [evenLimit, resolution_eq]
  exact Binary64.ofFraction_two_pow (Nat.sub_le _ _) (by decide)

theorem evenLimit_le_iff (s : Stream) (n : Nat) :
    evenLimit n ≤ s.next.1 ↔ 2 ^ 53 - 2 ^ 53 % n ≤ s.word * 2 ^ 21 := by
  obtain ⟨⟨_, hlimit⟩, hlv⟩ := value_evenLimit n
  obtain ⟨⟨_, hdraw⟩, hdv⟩ := s.value_next
  have hscaled : (s.word : ℚ) / 2 ^ 32 = (s.word * 2 ^ 21 : Nat) / 2 ^ 53 := by
    push_cast
    ring
  rw [Binary64.le_iff_value hlimit hdraw, hlv, hdv, hscaled, div_le_div_iff_of_pos_right (by norm_num),
    Nat.cast_le]

/-- Below few enough numbers a draw is never so close to one that it is drawn again. -/
theorem not_evenLimit_le {n : Nat} (hpos : 0 < n) (hn : n ≤ 2 ^ 20) (s : Stream) :
    ¬ evenLimit n ≤ s.next.1 := by
  have hmod := Nat.mod_lt (2 ^ 53) hpos
  have hword := s.word_lt
  rw [evenLimit_le_iff]
  omega

theorem firstBelow_evenLimit {n : Nat} (hpos : 0 < n) (hn : n ≤ 2 ^ 20) (s : Stream) (fuel : Nat) :
    s.firstBelow (evenLimit n) (fuel + 1) = some s.next := by
  have hbelow := not_evenLimit_le hpos hn s
  rw [firstBelow]
  cases hnext : s.next with
  | mk r t =>
    rw [hnext] at hbelow
    exact if_neg hbelow

/-- Scaled to the numbers between zero and one that there are, a draw is a multiple of `2^21`. -/
theorem floor_scaled (s : Stream) :
    (s.next.1 * .ofFraction false resolution 1).floor = .ok ((s.word * 2 ^ 21 : Nat) : Int) := by
  obtain ⟨⟨hdu, hdf⟩, hdv⟩ := s.value_next
  obtain ⟨⟨hru, hrf⟩, hrv⟩ := Binary64.ofFraction_two_pow (show 2 ^ 53 ≤ 2 ^ 53 from le_rfl)
    (Nat.zero_le 1074)
  have hproduct := Binary64.isRounding_mul hdu hru hdf hrf
  have he : (s.word : ℚ) / 2 ^ 32 * ((2 ^ 53 : Nat) / 2 ^ 0) = (s.word * 2 ^ 21 : Nat) := by
    push_cast
    ring
  rw [hdv, hrv, he] at hproduct
  have hword := s.word_lt
  exact hproduct.floor_eq (by omega)

/-- What a number that is drawn below the limit comes to. -/
theorem below_of_firstBelow {n : Nat} (hn : n < 2 ^ 53) {s t : Stream}
    (h : s.firstBelow (evenLimit n) (Nat.pow 2 32) = some t.next) :
    s.below n = .ok ((t.word * 2 ^ 21 % n : Nat), t.advance) := by
  rw [below, resolution_eq, if_neg (by omega), h]
  have hfloor := t.floor_scaled
  have hafter : t.next.2 = t.advance := rfl
  cases hnext : t.next with
  | mk r u =>
    rw [hnext] at hfloor hafter
    obtain rfl := hafter
    rw [resolution_eq] at hfloor
    refine bind_eq_ok.mpr ⟨_, hfloor, ?_⟩
    rw [Int.natCast_emod]
    rfl

theorem below_eq {n : Nat} (hpos : 0 < n) (hn : n ≤ 2 ^ 20) (s : Stream) :
    s.below n = .ok ((s.word * 2 ^ 21 % n : Nat), s.advance) := by
  obtain ⟨fuel, hfuel⟩ : ∃ fuel, Nat.pow 2 32 = fuel + 1 := ⟨2 ^ 32 - 1, by decide⟩
  refine below_of_firstBelow (by omega) ?_
  rw [hfuel, firstBelow_evenLimit hpos hn]

theorem nth_natCast {α : Type} (xs : List α) (i : Nat) : nth xs i = xs[i]? := by
  rw [nth, if_neg (by omega), if_neg (by omega), Int.toNat_natCast]

theorem choice_of_below {α : Type} {xs : List α} {s t : Stream} {i : Nat} {a : α}
    (h : s.below xs.length = .ok (i, t)) (ha : xs[i]? = some a) : s.choice xs = .ok (a, t) := by
  have hne : xs ≠ [] := by
    rintro rfl
    cases ha
  have hnth : nth xs i = some a := (nth_natCast xs i).trans ha
  rw [choice, List.isEmpty_eq_false_iff.mpr hne, if_neg Bool.false_ne_true]
  exact bind_eq_ok.mpr ⟨_, h, by simp only [hnth]; rfl⟩

theorem integer_of_below {a b : Int} {s t : Stream} {i : Int} (hle : a ≤ b)
    (h : s.below (b - a + 1).toNat = .ok (i, t)) : s.integer a b = .ok (a + i, t) := by
  rw [integer, if_neg (by omega)]
  exact bind_eq_ok.mpr ⟨_, h, rfl⟩

end Draws

/-- A position that is chosen from some state: any list of the length gives its member there. -/
def Chosen (n i : Nat) : Prop := ∃ s : Stream, ∀ (α : Type) (xs : List α), xs.length = n →
  ∃ a t, xs[i]? = some a ∧ s.choice xs = .ok (a, t)

/-- An integer that is drawn from some state. -/
def Drawn (a b k : Int) : Prop := ∃ s t : Stream, s.integer a b = .ok (k, t)

section Reach

variable {n i : Nat}

theorem chosen_iff (hpos : 0 < n) (hn : n ≤ 2 ^ 20) :
    Chosen n i ↔ ∃ s : Stream, s.word * 2 ^ 21 % n = i := by
  constructor
  · rintro ⟨s, h⟩
    -- The positions of a list that counts them are its members.
    have hlen : (List.range n).length = n := List.length_range
    obtain ⟨a, t, ha, hchoice⟩ := h Nat (List.range n) hlen
    have hbelow := below_eq hpos hn s
    have hget := List.getElem?_range (Nat.mod_lt (s.word * 2 ^ 21) hpos)
    have hown : s.choice (List.range n) = .ok (s.word * 2 ^ 21 % n, s.advance) :=
      choice_of_below (by rwa [hlen]) hget
    obtain ⟨_, rfl⟩ := List.getElem?_eq_some_iff.mp ha
    rw [hown, List.getElem_range] at hchoice
    exact ⟨s, (Prod.mk.inj (Except.ok.inj hchoice)).1⟩
  · rintro ⟨s, rfl⟩
    refine ⟨s, fun α xs hlen => ?_⟩
    subst hlen
    have hget := List.getElem?_eq_getElem (Nat.mod_lt (s.word * 2 ^ 21) hpos)
    exact ⟨_, _, hget, choice_of_below (below_eq hpos hn s) hget⟩

theorem drawn_iff {a b k : Int} (hle : a ≤ b) (hrange : b - a < 2 ^ 20) :
    Drawn a b k ↔ ∃ s : Stream, k = a + (s.word * 2 ^ 21 % (b - a + 1).toNat : Nat) := by
  have hdraw : ∀ s : Stream, s.integer a b =
      .ok (a + (s.word * 2 ^ 21 % (b - a + 1).toNat : Nat), s.advance) :=
    fun s => integer_of_below hle (below_eq (by omega) (by omega) s)
  constructor
  · rintro ⟨s, t, h⟩
    rw [hdraw] at h
    exact ⟨s, (Prod.mk.inj (Except.ok.inj h)).1.symm⟩
  · rintro ⟨s, rfl⟩
    exact ⟨s, _, hdraw s⟩

/-- Integers are drawn as the positions are among as many. -/
theorem drawn_iff_chosen (hpos : 0 < n) (hn : n ≤ 2 ^ 20) {a b : Int} (hcount : b - a + 1 = n)
    (k : Int) : Drawn a b k ↔ ∃ i, Chosen n i ∧ k = a + i := by
  have hlen : (b - a + 1).toNat = n := by omega
  rw [drawn_iff (by omega) (by omega), hlen]
  constructor
  · rintro ⟨s, rfl⟩
    exact ⟨_, (chosen_iff hpos hn).mpr ⟨s, rfl⟩, rfl⟩
  · rintro ⟨i, hi, rfl⟩
    obtain ⟨s, rfl⟩ := (chosen_iff hpos hn).mp hi
    exact ⟨s, rfl⟩

theorem drawn_all_iff_chosen (hpos : 0 < n) (hn : n ≤ 2 ^ 20) {a b : Int} (hcount : b - a + 1 = n) :
    (∀ k, a ≤ k → k ≤ b → Drawn a b k) ↔ ∀ i < n, Chosen n i := by
  have hdrawn := drawn_iff_chosen hpos hn hcount
  constructor
  · intro h i hi
    obtain ⟨j, hj, hk⟩ := (hdrawn _).mp (h (a + i) (by omega) (by omega))
    obtain rfl : i = j := by omega
    exact hj
  · intro h k hlow hhigh
    exact (hdrawn k).mpr ⟨(k - a).toNat, h _ (by omega), by omega⟩

/-- The remainder of a multiple shares its divisors with the length. -/
theorem dvd_of_remainder {w : Nat} (h : w * 2 ^ 21 % n = i) : Nat.gcd (2 ^ 21) n ∣ i := by
  rw [← h, Nat.dvd_mod_iff (Nat.gcd_dvd_right _ _)]
  exact (Nat.gcd_dvd_left _ _).mul_left w

theorem coprime_of_odd (hodd : n % 2 = 1) : Nat.Coprime (2 ^ 21) n :=
  Nat.Coprime.pow_left 21 (Nat.coprime_two_left.mpr (Nat.odd_iff.mpr hodd))

/-- Among an odd number a multiple of `2^21` takes every remainder just if what is multiplied does,
and among an even number it never does. -/
theorem remainders_iff {W : Nat → Prop} (hpos : 0 < n) :
    (∀ i < n, ∃ w, W w ∧ w * 2 ^ 21 % n = i) ↔ n % 2 = 1 ∧ ∀ i < n, ∃ w, W w ∧ w % n = i := by
  constructor
  · intro h
    have hodd : n % 2 = 1 := by
      by_contra heven
      obtain ⟨w, _, hw⟩ := h 1 (by omega)
      have hdvd := dvd_of_remainder hw
      have htwo : 2 ∣ Nat.gcd (2 ^ 21) n := Nat.dvd_gcd (by decide) (by omega)
      exact absurd (htwo.trans hdvd) (by decide)
    refine ⟨hodd, fun i hi => ?_⟩
    obtain ⟨w, hword, hw⟩ := h (i * 2 ^ 21 % n) (Nat.mod_lt _ hpos)
    have hcancel := Nat.ModEq.cancel_right_of_coprime (coprime_of_odd hodd).symm hw
    exact ⟨w, hword, Eq.trans hcancel (Nat.mod_eq_of_lt hi)⟩
  · rintro ⟨hodd, h⟩ i hi
    obtain ⟨m, hm, hmod⟩ := Nat.exists_mul_mod_eq_of_coprime i (coprime_of_odd hodd) hpos.ne'
    obtain ⟨w, hword, rfl⟩ := h m hm
    refine ⟨w, hword, ?_⟩
    rw [← Nat.mod_mul_mod, Nat.mul_comm, hmod, Nat.mod_eq_of_lt hi]

end Reach

/-- What is chosen among a number of positions, and what is drawn from as many integers. -/
structure ReachOf (n : Nat) : Prop where
  /-- A position is chosen just if `2^21` times a word that is drawn leaves it over. -/
  chosen : ∀ i, Chosen n i ↔ ∃ s : Stream, s.word * 2 ^ 21 % n = i
  drawn : ∀ a b : Int, b - a + 1 = n → ∀ k, Drawn a b k ↔ ∃ i, Chosen n i ∧ k = a + i
  gcd_dvd : ∀ i, Chosen n i → Nat.gcd (2 ^ 21) n ∣ i
  /-- Among a power of two only the first is ever chosen. -/
  two_pow : ∀ k, n = 2 ^ k → ∀ i, Chosen n i ↔ i = 0
  /-- All positions are chosen just if there is an odd number of them and the words that are drawn
  leave every remainder. -/
  chosen_all : (∀ i < n, Chosen n i) ↔ n % 2 = 1 ∧ ∀ i < n, ∃ s : Stream, s.word % n = i
  drawn_all : ∀ a b : Int, b - a + 1 = n → ((∀ k, a ≤ k → k ≤ b → Drawn a b k) ↔
    n % 2 = 1 ∧ ∀ i < n, ∃ s : Stream, s.word % n = i)

theorem reachOf {n : Nat} (hpos : 0 < n) (hn : n ≤ 2 ^ 20) : ReachOf n := by
  have hall : (∀ i < n, Chosen n i) ↔ n % 2 = 1 ∧ ∀ i < n, ∃ s : Stream, s.word % n = i := by
    have hwords := remainders_iff (W := fun w => ∃ s : Stream, s.word = w) hpos
    simpa [chosen_iff hpos hn] using hwords
  refine ⟨fun i => chosen_iff hpos hn, fun a b hcount => drawn_iff_chosen hpos hn hcount,
    fun i hi => ?_, ?_, hall, fun a b hcount => (drawn_all_iff_chosen hpos hn hcount).trans hall⟩
  · obtain ⟨s, hs⟩ := (chosen_iff hpos hn).mp hi
    exact dvd_of_remainder hs
  · rintro k rfl i
    have hle : k ≤ 20 := (Nat.pow_le_pow_iff_right (by decide)).mp hn
    have hzero : ∀ w, w * 2 ^ 21 % 2 ^ k = 0 :=
      fun w => Nat.mod_eq_zero_of_dvd ((Nat.pow_dvd_pow 2 (by omega)).mul_left w)
    rw [chosen_iff hpos hn]
    simp only [hzero]
    exact ⟨fun ⟨_, h⟩ => h.symm, fun h => ⟨⟨0⟩, h.symm⟩⟩

/-- Of six positions the second, the fourth and the last are never chosen, and the others are. -/
theorem six_reachOf : 0 < 6 ∧ 6 ≤ 2 ^ 20 ∧ ReachOf 6 ∧ ∀ i < 6, Chosen 6 i ↔ i % 2 = 0 := by
  have hreach : ReachOf 6 := reachOf (by decide) (by decide)
  refine ⟨by decide, by decide, hreach, fun i hi => ⟨fun h => ?_, fun h => ?_⟩⟩
  · have hdvd := hreach.gcd_dvd i h
    have hgcd : Nat.gcd (2 ^ 21) 6 = 2 := by decide
    rw [hgcd] at hdvd
    exact Nat.mod_eq_zero_of_dvd hdvd
  · have hstates : ∀ i ∈ [0, 2, 4], ∃ state ∈ [0, 1, 2, 3, 4, 5, 6, 7],
        (Stream.mk state).word * 2 ^ 21 % 6 = i := by
      decide +kernel
    have hmem : i ∈ [0, 2, 4] := by
      rw [List.mem_cons, List.mem_cons, List.mem_singleton]
      omega
    obtain ⟨state, _, hstate⟩ := hstates i hmem
    exact (hreach.chosen i).mpr ⟨⟨state⟩, hstate⟩

/-- A choice between two always gives the first, and so does a draw of zero or one. -/
theorem second_never_chosen : (∀ s : Stream, s.choice ["a", "b"] = .ok ("a", s.advance)) ∧
    ¬ Chosen 2 1 ∧ ¬ Drawn 0 1 1 := by
  have hzero : ∀ w : Nat, w * 2 ^ 21 % 2 = 0 := by omega
  have hnot : ¬ Chosen 2 1 := by
    rw [chosen_iff (by decide) (by decide)]
    rintro ⟨s, hs⟩
    rw [hzero] at hs
    exact absurd hs (by decide)
  refine ⟨fun s => ?_, hnot, ?_⟩
  · have hbelow := below_eq (n := 2) (by decide) (by decide) s
    rw [hzero] at hbelow
    exact choice_of_below hbelow rfl
  · rw [drawn_iff_chosen (n := 2) (by decide) (by decide) (by decide)]
    rintro ⟨i, hi, hk⟩
    obtain rfl : i = 1 := by omega
    exact hnot hi

end Stream
end PatternLoom
