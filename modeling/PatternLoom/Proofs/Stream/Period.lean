import Mathlib
import PatternLoom.Proofs.Stream.Choice
import PatternLoom.Proofs.Stream.Position

/-! The walk of the states. Every draw adds the same odd number, so from any state the walk comes to
every state, to each of them once in `2^32` draws, and all streams draw from one cycle. One of the
draws is zero. -/

namespace PatternLoom
namespace Stream

open scoped UInt32.CommRing

/-- A number of draws that takes the state one on. -/
def oneOn : UInt32 := 0xdc58aa5d

theorem oneOn_mul_increment : oneOn * increment = 1 := by decide

theorem state_after (s : Stream) (n : Nat) :
    (s.after n).state = s.state + UInt32.ofNat n * increment := by
  induction n generalizing s with
  | zero =>
    have hzero : UInt32.ofNat 0 = 0 := rfl
    rw [after_zero, hzero, zero_mul, add_zero]
  | succ n ih =>
    have hsucc : UInt32.ofNat (n + 1) = UInt32.ofNat n + 1 := UInt32.ofNat_add n 1
    rw [after_succ, ih, advance, hsucc]
    ring

theorem after_eq_iff (s t : Stream) (n : Nat) :
    s.after n = t ↔ UInt32.ofNat n = oneOn * (t.state - s.state) := by
  have hinverse := oneOn_mul_increment
  constructor
  · rintro rfl
    rw [state_after]
    linear_combination (-UInt32.ofNat n) * hinverse
  · intro h
    have hstate : (s.after n).state = t.state := by
      rw [state_after, h]
      linear_combination (t.state - s.state) * hinverse
    exact (Stream.mk.injEq _ _).mpr hstate

/-- Each state comes once in `2^32` draws. -/
theorem existsUnique_after (s t : Stream) : ∃! n, n < 2 ^ 32 ∧ s.after n = t := by
  refine ⟨(oneOn * (t.state - s.state)).toNat, ⟨UInt32.toNat_lt _, ?_⟩, ?_⟩
  · rw [after_eq_iff, UInt32.ofNat_toNat]
  · rintro n ⟨hn, h⟩
    rw [← (after_eq_iff s t n).mp h, UInt32.toNat_ofNat_of_lt' hn]

/-- Mixing leaves zero, so the draw that reaches the state zero is zero. -/
theorem exists_word_zero (s : Stream) : ∃ k < 2 ^ 32, (s.after k).word = 0 := by
  obtain ⟨k, ⟨hk, hstate⟩, _⟩ := existsUnique_after s ⟨-increment⟩
  refine ⟨k, hk, ?_⟩
  rw [hstate]
  decide

theorem toNat_state_after (s : Stream) (n : Nat) :
    (s.after n).state.toNat = (s.state.toNat + n * increment.toNat) % 2 ^ 32 := by
  rw [state_after, UInt32.toNat_add, UInt32.toNat_mul, UInt32.toNat_ofNat', Nat.mod_mul_mod,
    Nat.add_mod_mod]

theorem after_eq_after_iff (s : Stream) (m n : Nat) :
    s.after m = s.after n ↔ m ≡ n [MOD 2 ^ 32] := by
  have hplace := (after_eq_iff s (s.after n) n).mp rfl
  rw [after_eq_iff, ← hplace, ← UInt32.toNat_inj, UInt32.toNat_ofNat', UInt32.toNat_ofNat']
  rfl

theorem toNat_state_ofState (n : Int) : (ofState n).state.toNat = (n % 2 ^ 32).toNat := by
  have hpower : Int.pow 2 32 = 2 ^ 32 := rfl
  have hlow := Int.emod_nonneg n (show (2 : Int) ^ 32 ≠ 0 by decide)
  have hhigh := Int.emod_lt_of_pos n (show (0 : Int) < 2 ^ 32 by decide)
  rw [ofState, hpower, UInt32.toNat_ofNat', Nat.mod_eq_of_lt (by omega)]

/-- A walk from a state around all of them, which every stream joins somewhere. -/
structure WalksRound (s : Stream) (start : Nat) : Prop where
  state_eq : ∀ n, (s.draws n).2.state.toNat = (start + n * 0x6d2b79f5) % 2 ^ 32
  again_iff : ∀ m n, (s.draws m).2 = (s.draws n).2 ↔ m ≡ n [MOD 2 ^ 32]
  reaches : ∀ t : Stream, ∃ n < 2 ^ 32, (s.draws n).2 = t
  shifted : ∀ t : Stream, ∃ k < 2 ^ 32, ∀ n, (t.draws n).1 = (s.draws (k + n)).1.drop k
  cyclic : ∀ n, (s.draws n).1 = (s.draws (2 ^ 32 + n)).1.drop (2 ^ 32)

theorem walksRound (s : Stream) : WalksRound s s.state.toNat := by
  refine ⟨fun n => ?_, fun m n => ?_, fun t => ?_, fun t => ?_, fun n => ?_⟩
  · rw [draws_snd]
    exact toNat_state_after s n
  · rw [draws_snd, draws_snd]
    exact after_eq_after_iff s m n
  · obtain ⟨n, ⟨hlt, hn⟩, -⟩ := existsUnique_after s t
    exact ⟨n, hlt, by rw [draws_snd, hn]⟩
  · obtain ⟨k, ⟨hlt, hk⟩, -⟩ := existsUnique_after s t
    exact ⟨k, hlt, fun n => by rw [drop_draws, hk]⟩
  · have hround : s.after (2 ^ 32) = s.after 0 := (after_eq_after_iff s _ _).mpr (by decide)
    rw [drop_draws, hround, after_zero]

/-- Whatever a stream is seeded with, its draws walk around all states. -/
theorem seeded_walksRound : (∀ seed : String, WalksRound (ofSeed seed) (hashSeed seed).toNat) ∧
    ∀ n : Int, WalksRound (ofState n) (n % 2 ^ 32).toNat := by
  refine ⟨fun seed => walksRound (ofSeed seed), fun n => ?_⟩
  rw [← toNat_state_ofState]
  exact walksRound (ofState n)

end Stream
end PatternLoom
