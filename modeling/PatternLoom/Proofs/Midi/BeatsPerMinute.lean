import Mathlib
import PatternLoom.Proofs.Binary64.Value
import PatternLoom.Proofs.Midi.Containment

/-! The tempo of a score that is read. Its bytes hold fewer than `2^24` microseconds a beat, so it
has a beat a minute or more, and rounding keeps it above zero. -/

namespace PatternLoom
namespace Midi

open Binary64

theorem one_le_quotient {microseconds : Nat} (hpos : 1 ≤ microseconds) (hlt : microseconds < 2 ^ 24)
    {x q : Binary64} (hx : ofInt microseconds = .ok x)
    (hq : (60000000 : Binary64).quotient x = .ok q) :
    q.Unsigned ∧ q.isFinite ∧ 1 ≤ q.value ∧ q.value ≤ (60000000 : Binary64).value := by
  have hone : (1 : Binary64).Unsigned ∧ (1 : Binary64).isFinite := ⟨unsigned_one, by decide +kernel⟩
  have hminute : (60000000 : Binary64).Unsigned ∧ (60000000 : Binary64).isFinite := by
    unfold Unsigned
    decide +kernel
  have hwhole : ofInt (60000000 : Nat) = .ok 60000000 := by decide +kernel
  have hround := isRounding_ofInt hx
  have hfinite := isFinite_of_ofInt hx
  have hle : x.value ≤ (60000000 : Binary64).value :=
    hround.mono (isRounding_ofInt hwhole) hfinite hminute.2 (by exact_mod_cast (by omega))
  have hle' : 1 ≤ x.value := by
    have hcast : (1 : ℚ) ≤ microseconds := by exact_mod_cast hpos
    rw [← value_one] at hcast ⊢
    exact (isRounding_self hone.1 hone.2).mono hround hone.2 hfinite hcast
  have hquotient : IsRounding q ((60000000 : Binary64).value / x.value) := by
    rw [quotient_eq hq]
    exact isRounding_div hminute.1 hround.unsigned hminute.2 hfinite (by linarith)
  have hbounds := hquotient.between hone hminute
    (by rw [value_one, one_le_div (by linarith)]; exact hle)
    (div_le_self hminute.1.value_nonneg hle')
  rw [value_one] at hbounds
  exact ⟨hquotient.unsigned, hbounds⟩

theorem one_le_beatsPerMinute {microseconds : Nat} (hlt : microseconds < 2 ^ 24) {bpm : Binary64}
    (h : beatsPerMinute microseconds = .ok bpm) : bpm.isFinite ∧ 1 ≤ bpm := by
  have hpos := Nat.one_le_iff_ne_zero.mpr ((settles_beatsPerMinute hlt).of_eq_ok h)
  simp only [beatsPerMinute, bind_eq_ok, pure_eq_ok] at h
  obtain ⟨x, hx, q, hq, rfl⟩ := h
  obtain ⟨hunsigned, hqfinite, hlow, hhigh⟩ := one_le_quotient hpos hlt hx hq
  have hone : (1 : Binary64).Unsigned ∧ (1 : Binary64).isFinite := ⟨unsigned_one, by decide +kernel⟩
  have hfour : (4 : Binary64).Unsigned ∧ (4 : Binary64).isFinite := by
    unfold Unsigned
    decide +kernel
  have hminute : (60000000 : Binary64).Unsigned ∧ (60000000 : Binary64).isFinite := by
    unfold Unsigned
    decide +kernel
  have hlarge : ((60000000 : Binary64) * 4).isFinite := by decide +kernel
  have hfour_le : (1 : Binary64).value ≤ (4 : Binary64).value :=
    (le_iff_value hone.2 hfour.2).mp (by decide +kernel)
  rw [value_one] at hfour_le
  have hproduct := isRounding_mul hunsigned hfour.1 hqfinite hfour.2
  have hfinite := hproduct.isFinite_of_le (isRounding_mul hminute.1 hfour.1 hminute.2 hfour.2)
    (mul_le_mul_of_nonneg_right hhigh (by linarith)) hlarge
  have hle : (4 : Binary64).value ≤ (q * 4).value :=
    (isRounding_self hfour.1 hfour.2).mono hproduct hfour.2 hfinite
      (le_mul_of_one_le_left (by linarith) hlow)
  have hround := isRounding_div hproduct.unsigned hfour.1 hfinite hfour.2 (by linarith)
  obtain ⟨hbpm, hbpm_low, _⟩ := hround.between hone ⟨hproduct.unsigned, hfinite⟩
    (by rw [value_one, one_le_div (by linarith)]; exact hle)
    (div_le_self hproduct.unsigned.value_nonneg hfour_le)
  exact ⟨hbpm, (le_iff_value hone.2 hbpm).mpr hbpm_low⟩

theorem one_le_tempoEvents {messages : List (Nat × Message)}
    (hsane : ∀ m ∈ messages.map Prod.snd, m.Sane) {tempos : List (Int × Binary64)}
    (h : tempoEvents messages = .ok tempos) : ∀ p ∈ tempos, p.2.isFinite ∧ 1 ≤ p.2 := by
  induction messages generalizing tempos with
  | nil =>
    obtain rfl := Except.ok.inj h
    exact List.forall_mem_nil _
  | cons message messages ih =>
    obtain ⟨tick, message⟩ := message
    rw [List.map_cons, List.forall_mem_cons] at hsane
    cases message with
    | tempo microseconds =>
      simp only [tempoEvents, bind_eq_ok, pure_eq_ok] at h
      obtain ⟨bpm, hbpm, rest, hrest, rfl⟩ := h
      exact List.forall_mem_cons.mpr ⟨one_le_beatsPerMinute hsane.1 hbpm, ih hsane.2 hrest⟩
    | _ => exact ih hsane.2 h

/-- A score that is read has a tempo, of a beat a minute or more. -/
theorem Score.one_le_bpm {data : List UInt8} {score : Score} (h : Score.read data = .ok score) :
    score.bpm.isFinite ∧ 1 ≤ score.bpm := by
  simp only [Score.read, bind_eq_ok] at h
  obtain ⟨_, _, _, _, file, hfile, hscore⟩ := h
  have htempos : ∀ p ∈ score.tempos, p.2.isFinite ∧ 1 ≤ p.2 := by
    simp only [ofFile, bind_eq_ok, pure_eq_ok] at hscore
    obtain ⟨tempos, hevents, rfl⟩ := hscore
    intro p hp
    exact one_le_tempoEvents (forall_messages.mpr (File.decode_sane hfile)) hevents p
      ((List.mergeSort_perm _ _).mem_iff.mp hp)
  unfold bpm
  cases hhead : score.tempos.head? with
  | none => decide +kernel
  | some p => exact htempos p (List.mem_of_mem_head? hhead)

end Midi
end PatternLoom
