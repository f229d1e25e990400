import Mathlib
import PatternLoom.Proofs.Binary64.Order
import PatternLoom.Proofs.Stream.Period

/-! Draws that are taken again end. A number is drawn again until it is below the limit of a count,
and the walk of the states comes to a draw of zero, which is below every limit. So choices, integers
and shuffles from any state come to a result. -/

namespace PatternLoom
namespace Stream

open Binary64 (BeyondRange)

/-- The place of the first draw below a limit. -/
def FirstBelow (s : Stream) (limit : Binary64) (k : Nat) : Prop :=
  s.drawAt k < limit ∧ ∀ j < k, limit ≤ s.drawAt j

instance (s : Stream) (limit : Binary64) (k : Nat) : Decidable (s.FirstBelow limit k) := by
  unfold FirstBelow
  infer_instance

section Limits

variable {s : Stream} {n : Nat}

theorem firstBelow_of_place {limit : Binary64} {k fuel : Nat} (h : s.FirstBelow limit k)
    (hk : k < fuel) : s.firstBelow limit fuel = some (s.after k).next := by
  induction k generalizing s fuel with
  | zero =>
    obtain ⟨fuel, rfl⟩ := Nat.exists_eq_add_one.mpr hk
    have hbelow : ¬ limit ≤ s.next.1 := fun hle => Binary64.not_lt_of_le hle (s.drawAt_zero ▸ h.1)
    rw [firstBelow, after_zero]
    cases hnext : s.next with
    | mk r t =>
      rw [hnext] at hbelow
      exact if_neg hbelow
  | succ k ih =>
    obtain ⟨fuel, rfl⟩ := Nat.exists_eq_add_one.mpr (Nat.zero_lt_of_lt hk)
    obtain ⟨hbelow, hagain⟩ := h
    have hfirst := hagain 0 k.succ_pos
    have hrest : s.advance.FirstBelow limit k := by
      refine ⟨s.drawAt_succ k ▸ hbelow, fun j hj => ?_⟩
      exact s.drawAt_succ j ▸ hagain (j + 1) (by omega)
    have hlater := ih hrest (by omega : k < fuel)
    rw [drawAt_zero] at hfirst
    rw [firstBelow, after_succ, ← hlater, ← next_snd]
    cases hnext : s.next with
    | mk r t =>
      rw [hnext] at hfirst
      exact if_pos hfirst

theorem drawAt_lt_evenLimit_iff (s : Stream) (n k : Nat) :
    s.drawAt k < evenLimit n ↔ (s.after k).word * 2 ^ 21 < 2 ^ 53 - 2 ^ 53 % n := by
  obtain ⟨⟨_, hlimit⟩, _⟩ := value_evenLimit n
  obtain ⟨⟨_, hdraw⟩, _⟩ := (s.after k).value_next
  have hagain := (s.after k).evenLimit_le_iff n
  rw [Binary64.le_iff_value hlimit hdraw] at hagain
  rw [drawAt, Binary64.lt_iff_value hdraw hlimit, ← not_le, hagain, not_le]

/-- The walk comes to an accepted draw with the draw of zero at the latest. -/
theorem exists_firstBelow (hpos : 0 < n) (hn : n < 2 ^ 53) (s : Stream) :
    ∃ k < 2 ^ 32, s.FirstBelow (evenLimit n) k := by
  have hmod : 2 ^ 53 % n < 2 ^ 53 := (Nat.mod_lt _ hpos).trans hn
  obtain ⟨m, hm, hzero⟩ := exists_word_zero s
  have haccepted : (s.after m).word * 2 ^ 21 < 2 ^ 53 - 2 ^ 53 % n := by
    rw [hzero, Nat.zero_mul]
    exact Nat.sub_pos_of_lt hmod
  have hex : ∃ k, (s.after k).word * 2 ^ 21 < 2 ^ 53 - 2 ^ 53 % n := ⟨m, haccepted⟩
  refine ⟨Nat.find hex, (Nat.find_min' hex haccepted).trans_lt hm, ?_, fun j hj => ?_⟩
  · exact (s.drawAt_lt_evenLimit_iff n _).mpr (Nat.find_spec hex)
  · rw [drawAt, evenLimit_le_iff]
    exact not_lt.mp (Nat.find_min hex hj)

theorem below_of_place (hn : n < 2 ^ 53) {k : Nat} (hk : k < 2 ^ 32)
    (h : s.FirstBelow (evenLimit n) k) :
    s.below n = .ok (((s.after k).word * 2 ^ 21 % n : Nat), s.after (k + 1)) := by
  have hfuel : k < Nat.pow 2 32 := hk
  have hbelow := below_of_firstBelow hn (firstBelow_of_place h hfuel)
  rwa [after_add]

/-- Beyond the resolution one draw is enough. -/
theorem below_of_resolution_le (hn : 2 ^ 53 ≤ n) (hrange : ¬ BeyondRange n) (s : Stream) :
    ∃ i < n, s.below n = .ok ((i : Int), s.advance) := by
  have hpos : 0 < n := (Nat.two_pow_pos 53).trans_le hn
  obtain ⟨y, hy, _⟩ := Binary64.ofInt_eq_ok (n := n) (not_le.mp hrange)
  obtain ⟨i, hi, hfloor⟩ := s.floor_draw_mul hpos hy
  refine ⟨i, hi, ?_⟩
  rw [below, resolution_eq, if_pos hn, ← next_snd]
  cases hnext : s.next with
  | mk r t =>
    rw [hnext] at hfloor
    exact bind_eq_ok.mpr ⟨y, hy, bind_eq_ok.mpr ⟨_, hfloor, rfl⟩⟩

theorem below_of_beyondRange (hrange : BeyondRange n) (s : Stream) :
    s.below n = .error .beyondRange := by
  have hn : 2 ^ 53 ≤ n := by
    by_contra hlt
    exact Binary64.not_beyondRange ((not_le.mp hlt).le.trans (by decide)) hrange
  have hcount : BeyondRange (n : Int).natAbs := by rwa [Int.natAbs_natCast]
  rw [below, resolution_eq, if_pos hn]
  exact bind_eq_error.mpr (.inl (Binary64.ofInt_eq_error hcount))

/-- Below this count most draws are taken again, almost half of them. -/
example : FirstBelow ⟨10⟩ (evenLimit (2 ^ 52 + 1)) 4 := by decide +kernel

end Limits

/-- A value with a property after a number of draws that is not above `most`, unless a count is
beyond the range of numbers. -/
inductive ComesTo {α : Type} (s : Stream) (n most : Nat) (P : α → Prop) : Result (α × Stream) → Prop
  | value {a : α} {k : Nat} (holds : P a) (within : k ≤ most) :
    ComesTo s n most P (.ok (a, s.after k))
  | refusal (beyond : BeyondRange n) : ComesTo s n most P (.error .beyondRange)

section Methods

variable {α β : Type} {s : Stream} {m n most rest : Nat} {P : α → Prop} {Q : β → Prop}

theorem comesTo_self {a : α} (ha : P a) : s.ComesTo n 0 P (.ok (a, s)) := .value ha le_rfl

theorem ComesTo.imp {R : α → Prop} {x : Result (α × Stream)} (h : s.ComesTo n most P x)
    (himp : ∀ a, P a → R a) : s.ComesTo n most R x := by
  cases h with
  | value holds within => exact .value (himp _ holds) within
  | refusal beyond => exact .refusal beyond

theorem ComesTo.of_after {k : Nat} {x : Result (α × Stream)}
    (h : (s.after k).ComesTo n rest P x) (hk : k ≤ most) : s.ComesTo n (most + rest) P x := by
  cases h with
  | value holds within =>
    rw [← after_add]
    exact .value holds (Nat.add_le_add hk within)
  | refusal beyond => exact .refusal beyond

theorem ComesTo.bind {x : Result (α × Stream)} (h : s.ComesTo m most P x) (hle : m ≤ n)
    {f : α × Stream → Result (β × Stream)}
    (hf : ∀ (a : α) (t : Stream), P a → t.ComesTo n rest Q (f (a, t))) :
    s.ComesTo n (most + rest) Q (x >>= f) := by
  cases h with
  | refusal beyond => exact .refusal (beyond.trans (Nat.mul_le_mul_right _ hle))
  | @value a k holds within =>
    exact (hf a (s.after k) holds).of_after within

/-- What is made of the value alone draws no more. -/
theorem ComesTo.map {x : Result (α × Stream)} (h : s.ComesTo n most P x)
    {f : α × Stream → Result (β × Stream)}
    (hf : ∀ (a : α) (t : Stream), P a → t.ComesTo n 0 Q (f (a, t))) :
    s.ComesTo n most Q (x >>= f) := h.bind le_rfl hf

theorem below_comesTo (hpos : 0 < n) (s : Stream) :
    s.ComesTo n (2 ^ 32) (fun i : Int => ∃ j : Nat, j < n ∧ i = j) (s.below n) := by
  by_cases hrange : BeyondRange n
  · rw [below_of_beyondRange hrange]
    exact .refusal hrange
  rcases Nat.lt_or_ge n (2 ^ 53) with hn | hn
  · obtain ⟨k, hk, hplace⟩ := exists_firstBelow hpos hn s
    rw [below_of_place hn hk hplace]
    exact .value ⟨_, Nat.mod_lt _ hpos, rfl⟩ hk
  · obtain ⟨i, hi, hbelow⟩ := below_of_resolution_le hn hrange s
    have hone : s.advance = s.after 1 := by rw [after_succ, after_zero]
    rw [hbelow, hone]
    exact .value ⟨i, hi, rfl⟩ (by decide)

theorem choice_comesTo {xs : List α} (hne : xs ≠ []) (s : Stream) :
    s.ComesTo xs.length (2 ^ 32) (· ∈ xs) (s.choice xs) := by
  rw [choice, List.isEmpty_eq_false_iff.mpr hne, if_neg Bool.false_ne_true]
  refine (below_comesTo (List.length_pos_iff.mpr hne) s).map ?_
  rintro _ t ⟨j, hj, rfl⟩
  have hnth : nth xs j = some xs[j] := by rw [nth_natCast, List.getElem?_eq_getElem hj]
  simp only [hnth]
  exact comesTo_self (List.getElem_mem hj)

theorem integer_comesTo {a b : Int} (hle : a ≤ b) (s : Stream) :
    s.ComesTo (b - a + 1).toNat (2 ^ 32) (fun i => a ≤ i ∧ i ≤ b) (s.integer a b) := by
  have hpos : 0 < (b - a + 1).toNat := by omega
  rw [integer, if_neg (not_lt.mpr hle)]
  refine (below_comesTo hpos s).map ?_
  rintro _ t ⟨j, hj, rfl⟩
  exact comesTo_self ⟨by omega, by omega⟩

/-- One draw picks one of the options there are. -/
theorem pickOne_eq_ok {options : List String} (hne : options ≠ [])
    (hcount : ¬ BeyondRange options.length) (s : Stream) :
    ∃ option ∈ options, s.pickOne options = .ok (option, s.advance) := by
  obtain ⟨y, hy, _⟩ := Binary64.ofInt_eq_ok (n := options.length) (not_le.mp hcount)
  obtain ⟨i, hi, hfloor⟩ := s.floor_draw_mul (List.length_pos_iff.mpr hne) hy
  have hnth : nth options i = some options[i] := by rw [nth_natCast, List.getElem?_eq_getElem hi]
  refine ⟨options[i], List.getElem_mem hi, ?_⟩
  rw [pickOne, List.isEmpty_eq_false_iff.mpr hne, if_neg Bool.false_ne_true, ← next_snd]
  cases hnext : s.next with
  | mk r t =>
    rw [hnext] at hfloor
    exact bind_eq_ok.mpr ⟨y, hy, bind_eq_ok.mpr ⟨_, hfloor, by simp only [hnth]; rfl⟩⟩

theorem swapIfInBounds_perm (xs : Array α) (i j : Nat) : (xs.swapIfInBounds i j).Perm xs := by
  rw [Array.swapIfInBounds_def]
  split
  · split
    · exact Array.swap_perm _ _
    · exact .rfl
  · exact .rfl

/-- Each position that is left to swap takes one number below a count that is not above the size. -/
theorem shuffleFrom_comesTo {xs : Array α} {i : Nat} (hi : i ≤ xs.size - 1) (s : Stream) :
    s.ComesTo xs.size (2 ^ 32 * i) (fun ys => ys.Perm xs) (shuffleFrom xs s i) := by
  induction i generalizing xs s with
  | zero => exact comesTo_self .rfl
  | succ i ih =>
    have hcount : i + 2 ≤ xs.size := by omega
    rw [shuffleFrom, Nat.mul_succ, Nat.add_comm]
    refine (below_comesTo (Nat.succ_pos _) s).bind hcount fun j t _ => ?_
    have hsize : (xs.swapIfInBounds (i + 1) j.toNat).size = xs.size := Array.size_swapIfInBounds
    have hrest := @ih (xs.swapIfInBounds (i + 1) j.toNat) (by omega) t
    rw [hsize] at hrest
    exact hrest.imp fun ys hys => hys.trans (swapIfInBounds_perm xs (i + 1) j.toNat)

theorem shuffle_comesTo (xs : List α) (s : Stream) :
    s.ComesTo xs.length (2 ^ 32 * (xs.length - 1)) (fun ys => ys.Perm xs) (s.shuffle xs) := by
  have hshuffled := @shuffleFrom_comesTo α xs.toArray (xs.length - 1) le_rfl s
  refine hshuffled.map fun ys t hys => ?_
  exact comesTo_self (Array.perm_iff_toList_perm.mp hys)

end Methods

/-- What is drawn from a stream comes to an end. -/
structure DrawsEnd (s : Stream) : Prop where
  /-- Draws are taken again until the first that is below the limit, and there is one. -/
  again : ∀ n, 0 < n → n < 2 ^ 53 → ∃ k < 2 ^ 32, s.FirstBelow (evenLimit n) k ∧
    s.below n = .ok (((s.after k).word * 2 ^ 21 % n : Nat), s.after (k + 1))
  choice : ∀ (α : Type) (xs : List α), xs ≠ [] →
    s.ComesTo xs.length (2 ^ 32) (· ∈ xs) (s.choice xs)
  integer : ∀ a b : Int, a ≤ b →
    s.ComesTo (b - a + 1).toNat (2 ^ 32) (fun i => a ≤ i ∧ i ≤ b) (s.integer a b)
  shuffle : ∀ (α : Type) (xs : List α),
    s.ComesTo xs.length (2 ^ 32 * (xs.length - 1)) (fun ys => ys.Perm xs) (s.shuffle xs)

theorem drawsEnd (s : Stream) : s.DrawsEnd where
  again n hpos hn := by
    obtain ⟨k, hk, hplace⟩ := exists_firstBelow hpos hn s
    exact ⟨k, hk, hplace, below_of_place hn hk hplace⟩
  choice _ _ hne := choice_comesTo hne s
  integer _ _ hle := integer_comesTo hle s
  shuffle _ xs := shuffle_comesTo xs s

end Stream
end PatternLoom
