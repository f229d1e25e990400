import Mathlib
import PatternLoom.Proofs.Piece.Resolved
import PatternLoom.Proofs.Stream.Rejection

/-! Why parameters do not resolve. One that does not take what is given for it ends the resolution,
so the failure is that of the first of these: an integer out of range for a number, or something
that is too long to be written. -/

namespace PatternLoom

open Binary64 (BeyondRange)

/-- A number for which an integer beyond the range of numbers is given. -/
def ParamSpec.Overflows (spec : ParamSpec) (given : Option Value) : Prop :=
  spec.kind = .number ∧ ∃ n, given = some (.int n) ∧ BeyondRange n.natAbs

/-- The first parameter that does not take what is given for it overflows. -/
def Template.Overflows (t : Template) (overrides : Params) : Prop :=
  StopsAt (fun spec => ∀ value ∈ givenFor overrides spec.key, spec.Takes value)
    (fun spec => spec.Overflows (givenFor overrides spec.key)) t.schema

section Failures

variable {spec : ParamSpec} {given sampled value : Value} {e : Failure}

theorem Value.written_error (h : value.written = .error e) : e = .tooLongToWrite := by
  unfold Value.written at h
  split at h
  · cases h
  · exact (Except.error.inj h).symm

namespace ParamSpec

theorem override_overflows (h : spec.Overflows (some given)) (sampled : Value) :
    spec.override given sampled = .error .beyondRange := by
  obtain ⟨hk, n, hn, hbeyond⟩ := h
  obtain rfl := Option.some.inj hn
  simp only [override, hk, Value.number?, Binary64.ofInt_eq_error hbeyond]
  rfl

theorem override_error (h : spec.override given sampled = .error e) :
    e = .beyondRange ∧ spec.Overflows (some given) ∨ e = .tooLongToWrite := by
  by_cases hover : spec.Overflows (some given)
  · rw [override_overflows hover] at h
    exact .inl ⟨(Except.error.inj h).symm, hover⟩
  refine .inr ?_
  cases hk : spec.kind with
  | boolean =>
    simp only [override, hk] at h
    cases h
  | select =>
    simp only [override, hk] at h
    rcases bind_eq_error.mp h with hwritten | ⟨_, _, h⟩
    · exact Value.written_error hwritten
    · cases h
  | number =>
    have hnumber : ∃ number, given.number? = .ok number := by
      cases given with
      | int n =>
        have hrange : n.natAbs * unitsPerOne < overflow :=
          not_le.mp fun hbeyond => hover ⟨hk, n, rfl, hbeyond⟩
        obtain ⟨x, hx, _⟩ := Binary64.ofInt_eq_ok hrange
        exact ⟨some x, bind_eq_ok.mpr ⟨x, hx, rfl⟩⟩
      | _ => exact ⟨_, rfl⟩
    obtain ⟨number, hnumber⟩ := hnumber
    simp only [override, hk] at h
    obtain ⟨_, hread, h⟩ := (bind_eq_error.mp h).resolve_left fun hfails => by
      rw [hnumber] at hfails
      cases hfails
    obtain rfl := Except.ok.inj (hnumber.symm.trans hread)
    cases number with
    | some x => cases h
    | none =>
      rcases bind_eq_error.mp h with hwritten | ⟨_, _, h⟩
      · exact Value.written_error hwritten
      · cases h

section Settling

variable {s : Stream} {given : Option Value}

theorem settled_error (hm : spec.Measured) (hc : spec.Countable)
    (h : spec.settled s.next.1 given = .error e) :
    e = .beyondRange ∧ spec.Overflows given ∨ e = .tooLongToWrite := by
  obtain ⟨sampled, hsampled⟩ := (sample_eq_ok hm s).mpr hc
  rw [settled, hsampled] at h
  cases given with
  | none => cases h
  | some value => exact override_error h

theorem settled_eq_beyondRange (hm : spec.Measured) (hc : spec.Countable) :
    spec.settled s.next.1 given = .error .beyondRange ↔ spec.Overflows given := by
  constructor
  · intro h
    rcases settled_error hm hc h with ⟨-, hover⟩ | h
    · exact hover
    · cases h
  · intro h
    obtain ⟨sampled, hsampled⟩ := (sample_eq_ok hm s).mpr hc
    cases given with
    | none =>
      obtain ⟨-, n, hn, -⟩ := h
      cases hn
    | some value =>
      rw [settled, hsampled]
      exact override_overflows h sampled

end Settling

end ParamSpec

namespace Template

variable {t : Template} {overrides resolved : Params} {s : Stream} {schema : List ParamSpec}

theorem resolveFrom_error (hs : ∀ spec ∈ schema, spec.Measured ∧ spec.Countable)
    (h : resolveFrom s overrides resolved schema = .error e) :
    e = .beyondRange ∨ e = .tooLongToWrite := by
  induction schema generalizing s resolved with
  | nil => cases h
  | cons spec schema ih =>
    obtain ⟨⟨hm, hc⟩, hschema⟩ := List.forall_mem_cons.mp hs
    rw [resolveFrom_settled, bind_eq_error] at h
    rcases h with h | ⟨value, _, h⟩
    · exact (ParamSpec.settled_error hm hc h).imp_left And.left
    · exact ih hschema h

theorem resolveFrom_eq_beyondRange (hs : ∀ spec ∈ schema, spec.Measured ∧ spec.Countable) :
    resolveFrom s overrides resolved schema = .error .beyondRange ↔
      StopsAt (fun spec => ∀ value ∈ givenFor overrides spec.key, spec.Takes value)
        (fun spec => spec.Overflows (givenFor overrides spec.key)) schema := by
  induction schema generalizing s resolved with
  | nil => exact iff_of_false nofun not_stopsAt_nil
  | cons spec schema ih =>
    obtain ⟨⟨hm, hc⟩, hschema⟩ := List.forall_mem_cons.mp hs
    have hsettles : (∃ value, spec.settled s.next.1 (givenFor overrides spec.key) = .ok value) ↔
        ∀ value ∈ givenFor overrides spec.key, spec.Takes value :=
      (ParamSpec.settled_eq_ok hm s).trans (and_iff_right hc)
    rw [resolveFrom_settled, bind_eq_error, stopsAt_cons, ParamSpec.settled_eq_beyondRange hm hc,
      ← hsettles]
    refine or_congr_right ?_
    constructor
    · rintro ⟨value, hvalue, hrest⟩
      exact ⟨⟨value, hvalue⟩, (ih hschema).mp hrest⟩
    · rintro ⟨⟨value, hvalue⟩, hrest⟩
      exact ⟨value, hvalue, (ih hschema).mpr hrest⟩

/-- A template that draws its parameters resolves them, or stops at one that overflows or cannot be
written. -/
theorem Drawable.resolve_error (ht : t.Drawable) {seed : String}
    (h : t.resolve seed overrides = .error e) : e = .beyondRange ∨ e = .tooLongToWrite :=
  resolveFrom_error (fun spec hspec => ⟨ht.measured spec hspec, ht.countable spec hspec⟩) h

theorem Drawable.resolve_eq_beyondRange (ht : t.Drawable) {seed : String} :
    t.resolve seed overrides = .error .beyondRange ↔ t.Overflows overrides :=
  resolveFrom_eq_beyondRange fun spec hspec => ⟨ht.measured spec hspec, ht.countable spec hspec⟩

end Template

end Failures

end PatternLoom
