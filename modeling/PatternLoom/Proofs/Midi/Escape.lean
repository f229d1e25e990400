import PatternLoom.Failure.Message
import PatternLoom.Midi.Import
import PatternLoom.Proofs.Binary64.Number
import PatternLoom.Proofs.Result

/-! Failures that escape from an import, and steps that settle: they succeed under a condition
and otherwise a failure escapes. Such steps can be put one after the other and repeated over
a list, and so can their conditions. -/

namespace PatternLoom
namespace Midi

/-- A failure that an import does not turn into a refusal. -/
def Escaping (e : Failure) : Prop := unusable e = false ∧ ∀ reason, e ≠ .refusedImport reason

/-- A step ends in a failure that escapes. -/
def Escapes {α : Type} (x : Result α) : Prop := ∃ e, x = .error e ∧ Escaping e

theorem not_escapes_ok {α : Type} (a : α) : ¬ Escapes (.ok a : Result α) := by
  rintro ⟨e, he, _⟩
  cases he

theorem not_escapes_refused {α : Type} (reason : ImportRefusal) :
    ¬ Escapes (.error (.refusedImport reason) : Result α) := by
  rintro ⟨e, he, hesc⟩
  exact hesc.2 reason (Except.error.inj he).symm

theorem escapes_error {α : Type} {e : Failure} : Escapes (.error e : Result α) ↔ Escaping e := by
  constructor
  · rintro ⟨e', he, hesc⟩
    rwa [Except.error.inj he]
  · exact fun h => ⟨e, rfl, h⟩

theorem not_escapes_bind {α β : Type} {x : Result α} {f : α → Result β} :
    ¬ Escapes (x >>= f) ↔ ¬ Escapes x ∧ ∀ a, x = .ok a → ¬ Escapes (f a) := by
  cases x with
  | ok a => exact ⟨fun h => ⟨not_escapes_ok a, by rintro _ ⟨⟩; exact h⟩, fun h => h.2 a rfl⟩
  | error e =>
    change ¬ Escapes (.error e) ↔ _
    rw [escapes_error, escapes_error]
    exact ⟨fun h => ⟨h, by rintro _ ⟨⟩⟩, fun h => h.1⟩

theorem not_escapes_bind_ok {α β : Type} {x : Result α} {f : α → Result β} {a : α}
    (h : x = .ok a) : ¬ Escapes (x >>= f) ↔ ¬ Escapes (f a) := by
  rw [h]
  rfl

theorem not_escapes_followed {α β : Type} {x : Result α} {f : α → Result β}
    (h : ∀ a, x = .ok a → ¬ Escapes (f a)) : ¬ Escapes (x >>= f) ↔ ¬ Escapes x :=
  not_escapes_bind.trans (and_iff_left h)

/-- A step succeeds under a condition, and a failure escapes without it. -/
def Settles {α : Type} (x : Result α) (p : Prop) : Prop :=
  (p ∧ ∃ a, x = .ok a) ∨ (¬ p ∧ Escapes x)

namespace Settles

variable {α β : Type} {x : Result α} {p q : Prop}

theorem ok (a : α) : Settles (.ok a : Result α) True := .inl ⟨trivial, a, rfl⟩

theorem pure (a : α) : Settles (Pure.pure a : Result α) True := .inl ⟨trivial, a, rfl⟩

theorem not_escapes_iff (h : Settles x p) : ¬ Escapes x ↔ p := by
  rcases h with ⟨hp, a, rfl⟩ | ⟨hp, hx⟩
  · exact iff_of_true (not_escapes_ok a) hp
  · exact iff_of_false (not_not_intro hx) hp

theorem exists_ok (h : Settles x p) (hp : p) : ∃ a, x = .ok a := by
  rcases h with ⟨_, hx⟩ | ⟨hnot, _⟩
  · exact hx
  · exact absurd hp hnot

theorem of_eq_ok (h : Settles x p) {a : α} (ha : x = .ok a) : p := by
  rcases h with ⟨hp, _⟩ | ⟨_, hx⟩
  · exact hp
  · rw [ha] at hx
    exact absurd hx (not_escapes_ok a)

theorem congr (h : Settles x p) (hpq : p ↔ q) : Settles x q := by
  rwa [Settles, ← hpq]

theorem bind {f : α → Result β} {r : α → Prop} (h : Settles x p)
    (hf : ∀ a, x = .ok a → Settles (f a) (r a)) :
    Settles (x >>= f) (p ∧ ∀ a, x = .ok a → r a) := by
  rcases h with ⟨hp, a, rfl⟩ | ⟨hp, e, rfl, he⟩
  · refine (hf a rfl).congr ?_
    constructor
    · intro hr
      refine ⟨hp, ?_⟩
      rintro _ ⟨⟩
      exact hr
    · exact fun h => h.2 a rfl
  · exact .inr ⟨fun h => hp h.1, e, rfl, he⟩

/-- The second step has a condition of its own, whatever the first one gives. -/
theorem andThen {f : α → Result β} (h : Settles x p)
    (hf : ∀ a, x = .ok a → Settles (f a) q) : Settles (x >>= f) (p ∧ q) := by
  refine (h.bind hf).congr (and_congr_right fun hp => ?_)
  obtain ⟨a, ha⟩ := h.exists_ok hp
  exact ⟨fun hq => hq a ha, fun hq _ _ => hq⟩

theorem exists_ok_iff (h : Settles x p) : (∃ a, x = .ok a) ↔ p :=
  ⟨fun ⟨_, ha⟩ => h.of_eq_ok ha, h.exists_ok⟩

/-- What follows does not fail. -/
theorem followed {f : α → Result β} (h : Settles x p)
    (hf : ∀ a, x = .ok a → ∃ b, f a = .ok b) : Settles (x >>= f) p := by
  have hrest : ∀ a, x = .ok a → Settles (f a) True := fun a ha => .inl ⟨trivial, hf a ha⟩
  exact (h.andThen hrest).congr (iff_of_eq (and_true p))

theorem mapM {f : α → Result β} {r : α → Prop} {xs : List α}
    (h : ∀ a ∈ xs, Settles (f a) (r a)) : Settles (xs.mapM f) (∀ a ∈ xs, r a) := by
  induction xs with
  | nil => exact (pure []).congr (by simp)
  | cons a xs ih =>
    obtain ⟨ha, hxs⟩ := List.forall_mem_cons.mp h
    rw [List.mapM_cons]
    refine (ha.andThen fun b _ => ?_).congr List.forall_mem_cons.symm
    exact (ih hxs).followed fun bs _ => ⟨_, rfl⟩

theorem foldlM {f : β → α → Result β} {r : α → Prop} {xs : List α}
    (h : ∀ b, ∀ a ∈ xs, Settles (f b a) (r a)) (b : β) :
    Settles (xs.foldlM f b) (∀ a ∈ xs, r a) := by
  induction xs generalizing b with
  | nil => exact (pure b).congr (by simp)
  | cons a xs ih =>
    rw [List.foldlM_cons]
    refine ((h b a List.mem_cons_self).andThen fun c _ => ?_).congr List.forall_mem_cons.symm
    exact ih (fun d a' ha' => h d a' (List.mem_cons_of_mem _ ha')) c

end Settles

section Numbers

open Binary64

theorem escaping_beyondRange : Escaping .beyondRange := ⟨rfl, fun _ => nofun⟩

theorem escaping_unbounded : Escaping .unbounded := ⟨rfl, fun _ => nofun⟩

theorem escaping_divisionByZero : Escaping .divisionByZero := ⟨rfl, fun _ => nofun⟩

theorem escaping_keySignature : Escaping .keySignature := ⟨rfl, fun _ => nofun⟩

theorem settles_inRange {x : Binary64} (h : x.isNan = false) : Settles x.inRange x.isFinite := by
  cases x with
  | nan => simp [isNan] at h
  | infinity negative => exact .inr ⟨by simp [isFinite], _, rfl, escaping_beyondRange⟩
  | finite negative u hu => exact .inl ⟨rfl, _, rfl⟩

theorem settles_ofInt (n : Int) : Settles (ofInt n) (n.natAbs * unitsPerOne < overflow) :=
  (settles_inRange (isNan_ofFraction _ _ _)).congr (by
    rw [isFinite_ofFraction Nat.one_pos, Nat.mul_one])

theorem settles_ofQuotient {m n : Int} (h : n ≠ 0) :
    Settles (ofQuotient m n) (m.natAbs * unitsPerOne < overflow * n.natAbs) := by
  rw [ofQuotient, if_neg h]
  refine (settles_inRange (isNan_ofFraction _ _ _)).congr ?_
  rw [isFinite_ofFraction (Int.natAbs_pos.mpr h)]

theorem settles_quotient (x y : Binary64) : Settles (x.quotient y) (y.isZero = false) := by
  unfold quotient
  cases hy : y.isZero with
  | true => exact .inr ⟨by simp, _, rfl, escaping_divisionByZero⟩
  | false => exact .inl ⟨rfl, _, rfl⟩

theorem settles_floor {x : Binary64} (h : x.isNan = false) : Settles x.floor x.isFinite := by
  cases x with
  | nan => simp [isNan] at h
  | infinity negative => exact .inr ⟨by simp [isFinite], _, rfl, escaping_unbounded⟩
  | finite negative u hu => exact .inl ⟨rfl, _, floor_eq_ok rfl⟩

theorem settles_roundHalfUp {x : Binary64} (h : x.isNan = false) :
    Settles x.roundHalfUp x.isFinite := by
  refine (settles_floor (isNan_add h half_lt.1)).congr ?_
  rw [isFinite_add_half h]

end Numbers

/-- A time can be counted in steps of a grid. -/
def CountsIn (x step : Binary64) : Prop := step.isZero = false ∧ (x / step).isFinite

theorem quotient_eq {x y q : Binary64} (h : x.quotient y = .ok q) : q = x / y := by
  rw [Binary64.quotient] at h
  split at h
  · cases h
  · exact (Except.ok.inj h).symm

/-- A rounded number can be converted back. -/
theorem ofInt_of_roundHalfUp {x : Binary64} {k : Int} (hx : x.isNan = false)
    (h : x.roundHalfUp = .ok k) : ∃ y, Binary64.ofInt k = .ok y := by
  have hfin : (x + 0.5).isFinite := by
    rw [Binary64.isFinite_add_half hx]
    exact (settles_roundHalfUp hx).of_eq_ok h
  rw [Binary64.roundHalfUp, Binary64.floor_eq_ok hfin] at h
  obtain rfl := Except.ok.inj h
  exact (settles_ofInt _).exists_ok (Binary64.natAbs_floor_add_one_lt hfin).1

/-- Counting a time in steps settles, whatever is done with a count that can be converted. -/
theorem settles_counted {α : Type} {x step : Binary64} {f : Int → Result α}
    (hx : x.isNan = false) (hs : step.isFinite)
    (hf : ∀ k, (∃ y, Binary64.ofInt k = .ok y) → ∃ a, f k = .ok a) :
    Settles (do f (← (← x.quotient step).roundHalfUp)) (CountsIn x step) := by
  have hround : ∀ q, x.quotient step = .ok q →
      Settles (do f (← q.roundHalfUp)) q.isFinite := by
    intro q hq
    have hzero := (settles_quotient x step).of_eq_ok hq
    obtain rfl := quotient_eq hq
    have hnan := Binary64.isNan_div hx hs hzero
    exact (settles_roundHalfUp hnan).followed fun k hk => hf k (ofInt_of_roundHalfUp hnan hk)
  refine ((settles_quotient x step).bind hround).congr (and_congr_right fun hzero => ?_)
  obtain ⟨q, hq⟩ := (settles_quotient x step).exists_ok hzero
  have hdiv := quotient_eq hq
  constructor
  · intro h
    rw [← hdiv]
    exact h q hq
  · intro h q' hq'
    rwa [quotient_eq hq']

theorem settles_snap {x step : Binary64} (hx : x.isNan = false) (hs : step.isFinite) :
    Settles (snap x step) (CountsIn x step) :=
  settles_counted hx hs fun _ ⟨y, hy⟩ => ⟨y * step, bind_eq_ok.mpr ⟨y, hy, rfl⟩⟩

theorem settles_stepIndex (total : Nat) {x step : Binary64} (hx : x.isNan = false)
    (hs : step.isFinite) : Settles (stepIndex total step x) (CountsIn x step) :=
  settles_counted hx hs fun _ _ => ⟨_, rfl⟩

end Midi
end PatternLoom
