import Mathlib
import PatternLoom.Stream

/-! Places of a stream. Every draw takes the stream one place on, whatever is made of it. -/

namespace PatternLoom
namespace Stream

/-- The stream after a number of draws. -/
def after (s : Stream) (n : Nat) : Stream := Nat.iterate advance n s

/-- The number drawn when `n` have been drawn before it. -/
def drawAt (s : Stream) (n : Nat) : Binary64 := (s.after n).next.1

theorem after_zero (s : Stream) : s.after 0 = s := rfl

theorem after_succ (s : Stream) (n : Nat) : s.after (n + 1) = s.advance.after n :=
  Function.iterate_succ_apply advance n s

theorem after_add (s : Stream) (m n : Nat) : s.after (m + n) = (s.after m).after n := by
  rw [Nat.add_comm]
  exact Function.iterate_add_apply advance n m s

theorem next_snd (s : Stream) : s.next.2 = s.advance := rfl

theorem drawAt_zero (s : Stream) : s.drawAt 0 = s.next.1 := by
  rw [drawAt, after_zero]

theorem drawAt_succ (s : Stream) (n : Nat) : s.drawAt (n + 1) = s.advance.drawAt n := by
  rw [drawAt, after_succ, ← drawAt]

theorem map_drawAt_succ (s : Stream) (n : Nat) :
    (List.range (n + 1)).map s.drawAt = s.drawAt 0 :: (List.range n).map s.advance.drawAt := by
  simp only [List.range_succ_eq_map, List.map_cons, List.map_map, Function.comp_def,
    Nat.succ_eq_add_one, drawAt_succ]

theorem draws_succ (s : Stream) (n : Nat) :
    (s.draws (n + 1)).1 = s.drawAt 0 :: (s.advance.draws n).1 := by
  rw [drawAt_zero, ← next_snd]
  cases hnext : s.next with
  | mk r t => rw [draws, hnext]

/-- The numbers drawn from a stream are those at its places, in order. -/
theorem draws_fst (s : Stream) (n : Nat) : (s.draws n).1 = (List.range n).map s.drawAt := by
  induction n generalizing s with
  | zero => rw [draws, List.range_zero, List.map_nil]
  | succ n ih => rw [map_drawAt_succ, draws_succ, ih s.advance]

theorem draws_snd (s : Stream) (n : Nat) : (s.draws n).2 = s.after n := by
  induction n generalizing s with
  | zero => rfl
  | succ n ih =>
    rw [after_succ, ← ih, ← next_snd]
    cases hnext : s.next with
    | mk r t => rw [draws, hnext]

theorem length_draws (s : Stream) (n : Nat) : (s.draws n).1.length = n := by
  rw [draws_fst, List.length_map, List.length_range]

theorem drawAt_after (s : Stream) (m : Nat) : (s.after m).drawAt = fun n => s.drawAt (m + n) := by
  funext n
  rw [drawAt, drawAt, after_add]

theorem draws_add (s : Stream) (m n : Nat) :
    (s.draws (m + n)).1 = (s.draws m).1 ++ ((s.after m).draws n).1 := by
  simp only [draws_fst, List.range_add, List.map_append, List.map_map, Function.comp_def,
    drawAt_after]

/-- What is drawn behind the first draws is what their last stream draws. -/
theorem drop_draws (s : Stream) (m n : Nat) :
    (s.draws (m + n)).1.drop m = ((s.after m).draws n).1 := by
  rw [draws_add, List.drop_left' (s.length_draws m)]

end Stream
end PatternLoom
