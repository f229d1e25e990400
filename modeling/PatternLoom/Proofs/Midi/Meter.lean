import PatternLoom.Proofs.Midi.Containment
import PatternLoom.Proofs.Midi.Extent
import PatternLoom.Proofs.Midi.Turns

/-! What a file gives to its score: notes that begin at zero or later and last, and a meter over a
power of two. The beats in a bar are then a whole number of 128th parts of a beat, and bars and
steps are counted without rounding as long as they are not too many. -/

namespace PatternLoom
namespace Midi

open Binary64

section Reading

/-- A score as it is read from a file. -/
structure Score.Readable (score : Score) : Prop where
  dyadic : score.Dyadic
  sounds : ∀ t ∈ score.tracks, ∀ n ∈ t.notes, n.Sounds

theorem OpenNote.sounds_closed (n : OpenNote) (key : Key) (tick : Nat) :
    (n.closed key tick).Sounds :=
  ⟨Int.natCast_nonneg n.start, show 0 < max 1 ((tick : Int) - n.start) by omega⟩

theorem Pairing.sounds_closed (events : List Event) : ∀ n ∈ (pairing events).closed, n.Sounds := by
  induction events using List.reverseRecOn with
  | nil => exact fun n hn => absurd hn List.not_mem_nil
  | append_singleton events e ih =>
    rw [pairing, List.foldl_concat]
    change ∀ n ∈ ((pairing events).step e).closed, n.Sounds
    obtain ⟨k, velocity, -, -, hstep⟩ | ⟨k, -, -, hstep⟩ | ⟨-, -, -, -, hclosed⟩ :=
      step_cases (pairing events) e
    · rw [hstep]
      exact ih
    · rw [hstep, release]
      split
      · exact ih
      · exact List.forall_mem_cons.mpr ⟨OpenNote.sounds_closed _ _ _, ih⟩
    · rwa [hclosed]

theorem TickTrack.sounds_ofEvents (index : Nat) (events : List Event) :
    ∀ n ∈ (TickTrack.ofEvents index events).notes, n.Sounds := by
  intro n hn
  have hmem := (List.mergeSort_perm (pairing events).notes _).mem_iff.mp hn
  rw [Pairing.notes, List.mem_append, List.mem_reverse] at hmem
  rcases hmem with hclosed | hopen
  · exact Pairing.sounds_closed events n hclosed
  · obtain ⟨entry, -, hentry⟩ := List.mem_flatMap.mp hopen
    obtain ⟨m, -, rfl⟩ := List.mem_map.mp hentry
    exact m.sounds_closed _ _

theorem Score.readable_of_read {data : List UInt8} {score : Score}
    (h : Score.read data = .ok score) : score.Readable := by
  simp only [Score.read, bind_eq_ok] at h
  obtain ⟨format, -, -, -, file, hfile, hscore⟩ := h
  refine ⟨Score.ofFile_dyadic (File.decode_sane hfile) hscore, ?_⟩
  rw [Score.ofFile_tracks hscore, numberedTracks_eq]
  intro t ht
  obtain ⟨i, -, rfl⟩ := List.mem_map.mp ht
  exact TickTrack.sounds_ofEvents i _

end Reading

section BarLength

variable {q : Quantity} {numerator power : Nat}

/-- The beats in a bar of a meter, at least one. -/
def meterBeats (numerator denominator : Int) : ℚ := max 1 (4 * numerator / denominator)

/-- They are a whole number of 128th parts. -/
theorem exists_parts_meterBeats (hn : numerator < 256) :
    ∃ m : Nat, meterBeats numerator (2 ^ power : Nat) * 2 ^ 7 = m := by
  rw [meterBeats]
  push_cast
  have hpos : (0 : ℚ) < 2 ^ power := by positivity
  rcases le_or_gt (4 * (numerator : ℚ) / 2 ^ power) 1 with hle | hlt
  · refine ⟨2 ^ 7, ?_⟩
    rw [max_eq_left hle]
    norm_num
  · have hpower : power ≤ 9 := by
      rw [lt_div_iff₀ hpos, one_mul] at hlt
      have hlt' : 2 ^ power < 4 * numerator := by exact_mod_cast hlt
      have hten : 2 ^ power < 2 ^ 10 := by omega
      have := (Nat.pow_lt_pow_iff_right one_lt_two).mp hten
      omega
    refine ⟨numerator * 2 ^ (9 - power), ?_⟩
    have hsplit : (2 : ℚ) ^ 9 = 2 ^ power * 2 ^ (9 - power) := by
      rw [← pow_add, Nat.add_sub_cancel' hpower]
    rw [max_eq_right hlt.le]
    push_cast
    field_simp
    linear_combination (numerator : ℚ) * hsplit

theorem Score.Dyadic.barLength {score : Score} (h : score.Dyadic) (hq : score.beatsPerBar = .ok q) :
    BarLength q (meterBeats score.meter.1 score.meter.2) ∧
      ∃ m : Nat, meterBeats score.meter.1 score.meter.2 * 2 ^ 7 = m := by
  obtain ⟨numerator, power, hn, hpower, hmeter⟩ := h
  rw [hmeter]
  refine ⟨?_, exists_parts_meterBeats hn⟩
  simp only [beatsPerBar, hmeter, bind_eq_ok, pure_eq_ok] at hq
  obtain ⟨x, hx, rfl⟩ := hq
  have hquot : ofQuotient (numerator * 4 : Nat) (2 ^ power : Nat) = .ok x := by
    rwa [Nat.cast_mul]
  have hround := isRounding_ofQuotient (Nat.two_pow_pos power) hquot
  obtain ⟨hfinite, hvalue⟩ := hround.exact
    (show _ = ((numerator * 4 : Nat) : ℚ) by push_cast; field_simp) (by omega) (by omega)
  have hbeats : 4 * (numerator : ℚ) / 2 ^ power = x.value := by
    rw [hvalue]
    push_cast
    ring
  rw [meterBeats]
  push_cast
  rw [hbeats]
  have hone := lt_iff_value (x := 1) (by decide +kernel) hfinite
  rw [value_one] at hone
  by_cases hlt : 1 < x
  · have hv := hone.mp hlt
    rw [Quantity.atLeastOne, if_pos hlt, max_eq_right hv.le]
    exact ⟨hv.le, .inr ⟨x, rfl, hround.unsigned, hfinite, rfl⟩⟩
  · have hv := not_lt.mp (mt hone.mpr hlt)
    rw [Quantity.atLeastOne, if_neg hlt, max_eq_left hv]
    exact ⟨le_rfl, .inl ⟨rfl, rfl⟩⟩

theorem Score.inBeats_meter {score : Score} {filename : String} {options : ImportOptions}
    {beats : BeatScore} {notices : List Notice} {reports : List TrackReport} (hd : score.Dyadic)
    (h : score.inBeats filename options = .ok (beats, notices, reports)) :
    BarLength beats.beatsPerBar (meterBeats beats.numerator beats.denominator) ∧
      ∃ m : Nat, meterBeats beats.numerator beats.denominator * 2 ^ 7 = m := by
  obtain ⟨hq, hnumerator, hdenominator⟩ := Score.inBeats_meter_eq h
  rw [hnumerator, hdenominator]
  exact hd.barLength hq

end BarLength

end Midi
end PatternLoom
