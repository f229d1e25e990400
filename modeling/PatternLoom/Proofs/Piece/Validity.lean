import Mathlib
import PatternLoom.Proofs.Piece.Independence
import PatternLoom.Proofs.Stream.Choice

/-! The values that a schema admits. Selections, truth values and numbers that are given are always
among them. A number that is drawn is moved within its bounds before it loses its later places, and
that may take it past a bound which has more of them. -/

namespace PatternLoom

theorem Value.written_eq_ok {value : Value} :
    (∃ text, value.written = .ok text) ↔ value.isWritable := by
  unfold Value.written
  split <;> simp_all

namespace ParamSpec

/-- A value of the kind of a parameter: a number within the bounds, one of the options if there are
any, or a truth value. -/
inductive Admits (spec : ParamSpec) : Value → Prop where
  | number {x : Binary64} (is_number : spec.kind = .number) (within : spec.Within x) :
    Admits spec (.real x)
  | option {text : String} (is_select : spec.kind = .select)
    (offered : spec.options ≠ [] → text ∈ spec.options) : Admits spec (.text text)
  | truth {b : Bool} (is_boolean : spec.kind = .boolean) : Admits spec (.bool b)

/-- Bounds, step and count of steps of a number are finite. -/
def Measured (spec : ParamSpec) : Prop :=
  spec.kind = .number → spec.low.isFinite ∧ spec.high.isFinite ∧ spec.step.isFinite ∧
    ((spec.high - spec.low) / spec.step).isFinite

instance : DecidablePred Measured := fun spec => by
  unfold Measured
  infer_instance

/-- The options are not too many for their count to be a number. -/
def Countable (spec : ParamSpec) : Prop :=
  spec.kind = .select → spec.options.length * unitsPerOne < overflow

/-- What can stand for a parameter. An integer for a number has to be in the range of numbers, and
what is no number, or is for a selection, has to be short enough to be written. -/
def Takes (spec : ParamSpec) (given : Value) : Prop :=
  match spec.kind, given with
  | .boolean, _ => True
  | .number, .int n => n.natAbs * unitsPerOne < overflow
  | .number, .real _ => True
  | _, other => other.isWritable

/-- A number for which no finite number is given, so that the draw decides. -/
def IsDrawn (spec : ParamSpec) (given : Option Value) : Prop :=
  spec.kind = .number ∧
    ∀ value ∈ given, ∀ x, value.number? = .ok (some x) → x.isFinite = false

/-- The point that a draw selects on the grid of steps. -/
def gridPoint (spec : ParamSpec) (draw : Binary64) : Result Binary64 := do
  let steps := max 1 (← ((spec.high - spec.low) / spec.step).roundHalfUp)
  let index ← (draw * (← Binary64.ofInt (steps + 1))).floor
  return spec.low + (← Binary64.ofInt index) * spec.step

/-- What a parameter comes to is admitted whenever it is not drawn. A number that is drawn is moved
within the bounds first and keeps four places then; it is admitted unless that takes it out of the
bounds again, which it never does if the bounds themselves do not move outwards. -/
structure ComesTo (spec : ParamSpec) (draw : Binary64) (given : Option Value) (value : Value) :
    Prop where
  undrawn : ¬ spec.IsDrawn given → spec.Admits value
  drawn : spec.IsDrawn given → ∃ p, spec.gridPoint draw = .ok p ∧ spec.Within (spec.clamp p) ∧
    value = .real (Decimal.roundTo 4 (spec.clamp p)) ∧
    (spec.Admits value ↔ ¬ Decimal.roundTo 4 (spec.clamp p) < spec.low ∧
      ¬ spec.high < Decimal.roundTo 4 (spec.clamp p))
  placed : ¬ Decimal.roundTo 4 spec.low < spec.low → ¬ spec.high < Decimal.roundTo 4 spec.high →
    spec.Admits value

section Sampling

variable {spec : ParamSpec} {draw : Binary64}

theorem sample_number (hk : spec.kind = .number) (draw : Binary64) : spec.sample draw = (do
    return .real (Decimal.roundTo 4 (spec.clamp (← spec.gridPoint draw)))) := by
  simp only [sample, hk, gridPoint, bind_assoc, pure_bind]

theorem gridPoint_eq_ok (hk : spec.kind = .number) (hm : spec.Measured) (s : Stream) :
    ∃ p, spec.gridPoint s.next.1 = .ok p ∧ p.isNan = false := by
  obtain ⟨hlow, _, hstep, hcount⟩ := hm hk
  have hhalf : ((spec.high - spec.low) / spec.step + 0.5).isFinite := by
    rw [Binary64.isFinite_add_half (Binary64.isNan_of_isFinite hcount), hcount]
  have hround := Binary64.floor_eq_ok hhalf
  have hroom := (Binary64.natAbs_floor_add_one_lt hhalf).2
  generalize ((spec.high - spec.low) / spec.step + 0.5).units / unitsPerOne = k at hround hroom
  have hsteps : (max 1 k + 1).natAbs * unitsPerOne < overflow := by
    rcases le_total 1 k with h | h
    · rwa [max_eq_right h]
    · have htwo : (1 + 1 : Int).natAbs = 2 := rfl
      rw [max_eq_left h, htwo]
      exact lt_of_le_of_lt (Nat.mul_le_mul_right _ (by decide)) two_pow_mul_unitsPerOne_lt
  obtain ⟨y, hy, hyfin, _⟩ := Binary64.ofInt_eq_ok hsteps
  have hproduct := s.isFinite_draw_mul hyfin
  obtain ⟨z, hz, hzfin, _⟩ := Binary64.ofInt_eq_ok (Binary64.natAbs_floor_add_one_lt hproduct).1
  refine ⟨spec.low + z * spec.step, ?_, ?_⟩
  · simp only [gridPoint, Binary64.roundHalfUp, bind_eq_ok, pure_eq_ok]
    exact ⟨k, hround, y, hy, _, Binary64.floor_eq_ok hproduct, z, hz, rfl⟩
  · exact Binary64.isNan_finite_add hlow (Binary64.isNan_mul hzfin hstep)

theorem sample_eq_ok (hm : spec.Measured) (s : Stream) :
    (∃ value, spec.sample s.next.1 = .ok value) ↔ spec.Countable := by
  cases hk : spec.kind with
  | number =>
    obtain ⟨p, hp, _⟩ := gridPoint_eq_ok hk hm s
    have hcount : spec.Countable := by simp [Countable, hk]
    refine iff_of_true ⟨.real (Decimal.roundTo 4 (spec.clamp p)), ?_⟩ hcount
    rw [sample_number hk]
    exact bind_eq_ok.mpr ⟨p, hp, rfl⟩
  | select =>
    simp only [sample, hk]
    by_cases hempty : spec.options = []
    · have hcount : spec.Countable := by
        intro _
        rw [hempty, List.length_nil, Nat.zero_mul]
        exact lt_of_le_of_lt (Nat.zero_le _) two_pow_mul_unitsPerOne_lt
      simp [hempty, hcount]
    · rw [if_neg (by simpa using hempty)]
      have hpos := List.length_pos_iff.mpr hempty
      constructor
      · rintro ⟨_, h⟩ -
        obtain ⟨y, hy, _⟩ := bind_eq_ok.mp h
        have hrange := Binary64.ofInt_in_range hy
        rwa [Int.natAbs_natCast] at hrange
      · intro hcount
        obtain ⟨y, hy, _⟩ := Binary64.ofInt_eq_ok (n := spec.options.length)
          (by rw [Int.natAbs_natCast]; exact hcount hk)
        obtain ⟨i, hi, hfloor⟩ := s.floor_draw_mul hpos hy
        refine ⟨.text (spec.options.get ⟨i, hi⟩), ?_⟩
        refine bind_eq_ok.mpr ⟨y, hy, bind_eq_ok.mpr ⟨i, hfloor, ?_⟩⟩
        have hget : nth spec.options (i : Int) = some (spec.options.get ⟨i, hi⟩) := by
          rw [Stream.nth_natCast, List.getElem?_eq_getElem hi, List.get_eq_getElem]
        rw [hget]
        rfl
  | boolean =>
    have hcount : spec.Countable := by simp [Countable, hk]
    exact iff_of_true ⟨_, by simp only [sample, hk]; rfl⟩ hcount

end Sampling

section Settling

variable {spec : ParamSpec} {given sampled value : Value}

theorem override_eq_ok : (∃ value, spec.override given sampled = .ok value) ↔ spec.Takes given := by
  -- What is written and then makes a value succeeds as soon as it can be written.
  have hwritten : ∀ next : String → Value,
      (∃ value, (do return next (← given.written) : Result Value) = .ok value) ↔
        given.isWritable := by
    intro next
    rw [← Value.written_eq_ok]
    constructor
    · rintro ⟨_, h⟩
      obtain ⟨text, htext, _⟩ := bind_eq_ok.mp h
      exact ⟨text, htext⟩
    · rintro ⟨text, htext⟩
      exact ⟨next text, bind_eq_ok.mpr ⟨text, htext, rfl⟩⟩
  cases hk : spec.kind with
  | number =>
    simp only [override, Takes, hk]
    cases given with
    | int n =>
      constructor
      · rintro ⟨_, h⟩
        obtain ⟨_, hnumber, _⟩ := bind_eq_ok.mp h
        obtain ⟨y, hy, _⟩ := bind_eq_ok.mp hnumber
        exact Binary64.ofInt_in_range hy
      · intro h
        obtain ⟨y, hy, _⟩ := Binary64.ofInt_eq_ok h
        exact ⟨_, bind_eq_ok.mpr ⟨some y, bind_eq_ok.mpr ⟨y, hy, rfl⟩, rfl⟩⟩
    | real x => exact iff_of_true ⟨_, rfl⟩ trivial
    | _ => exact hwritten fun _ => sampled
  | select =>
    simp only [override, Takes, hk]
    have h := hwritten fun candidate =>
      .text (if spec.options.contains candidate then candidate else spec.options.headD "")
    cases given <;> exact h
  | boolean =>
    simp only [override, Takes, hk]
    exact iff_of_true ⟨_, rfl⟩ trivial

/-- A parameter comes to a value when its options can be counted and it takes what is given. -/
theorem settled_eq_ok {given : Option Value} (hm : spec.Measured) (s : Stream) :
    (∃ value, spec.settled s.next.1 given = .ok value) ↔
      spec.Countable ∧ ∀ value ∈ given, spec.Takes value := by
  rw [← sample_eq_ok hm s]
  constructor
  · rintro ⟨value, h⟩
    obtain ⟨sampled, hsampled, h⟩ := bind_eq_ok.mp h
    refine ⟨⟨sampled, hsampled⟩, ?_⟩
    rintro other rfl
    exact override_eq_ok.mp ⟨value, h⟩
  · rintro ⟨⟨sampled, hsampled⟩, htakes⟩
    cases given with
    | none => exact ⟨sampled, bind_eq_ok.mpr ⟨sampled, hsampled, rfl⟩⟩
    | some other =>
      have hoverride : ∃ value, spec.override other sampled = .ok value :=
        override_eq_ok.mpr (htakes other rfl)
      obtain ⟨value, hvalue⟩ := hoverride
      exact ⟨value, bind_eq_ok.mpr ⟨sampled, hsampled, hvalue⟩⟩

theorem admits_real {x : Binary64} (hk : spec.kind = .number) :
    spec.Admits (.real x) ↔ spec.Within x := by
  constructor
  · rintro ⟨-, h⟩
    exact h
  · exact .number hk

theorem sample_admits {draw : Binary64} (hk : spec.kind ≠ .number)
    (h : spec.sample draw = .ok sampled) : spec.Admits sampled := by
  unfold sample at h
  split at h
  · rename_i hnumber
    exact absurd hnumber hk
  · rename_i hselect
    split at h
    · rename_i hempty
      obtain rfl := Except.ok.inj h
      exact .option hselect fun hc => absurd (List.isEmpty_iff.mp hempty) hc
    · obtain ⟨_, _, h⟩ := bind_eq_ok.mp h
      obtain ⟨i, _, h⟩ := bind_eq_ok.mp h
      split at h
      · rename_i option hoption
        obtain rfl := pure_eq_ok.mp h
        exact .option hselect fun _ => mem_of_nth hoption
      · cases h
  · rename_i hboolean
    obtain rfl := Except.ok.inj h
    exact .truth hboolean

theorem override_admits {given : Value} (hk : spec.kind ≠ .number)
    (h : spec.override given sampled = .ok value) : spec.Admits value := by
  unfold override at h
  split at h
  · rename_i hnumber
    exact absurd hnumber hk
  · rename_i hselect
    obtain ⟨candidate, _, h⟩ := bind_eq_ok.mp h
    obtain rfl := pure_eq_ok.mp h
    refine .option hselect fun hoffers => ?_
    split
    · rename_i hcontains
      exact List.contains_iff_mem.mp hcontains
    · rw [List.headD_eq_head?_getD, List.head?_eq_some_head hoffers]
      exact List.head_mem hoffers
  · rename_i hboolean
    obtain rfl := Except.ok.inj h
    exact .truth hboolean

/-- A finite number that is given is moved within the bounds, all else leaves the sample. -/
theorem override_number {given : Value} (hk : spec.kind = .number)
    (h : spec.override given sampled = .ok value) :
    (∃ x, given.number? = .ok (some x) ∧ x.isFinite ∧ value = .real (spec.clamp x)) ∨
      spec.IsDrawn (some given) ∧ value = sampled := by
  simp only [override, hk] at h
  obtain ⟨number, hnumber, h⟩ := bind_eq_ok.mp h
  cases number with
  | none =>
    obtain ⟨_, _, h⟩ := bind_eq_ok.mp h
    refine .inr ⟨⟨hk, ?_⟩, (pure_eq_ok.mp h).symm⟩
    rintro _ ⟨⟩ x hx
    rw [hnumber] at hx
    cases hx
  | some x =>
    obtain rfl := pure_eq_ok.mp h
    by_cases hx : x.isFinite
    · rw [if_pos hx]
      exact .inl ⟨x, hnumber, hx, rfl⟩
    · rw [if_neg hx]
      refine .inr ⟨⟨hk, ?_⟩, rfl⟩
      rintro _ ⟨⟩ y hy
      rw [hnumber] at hy
      cases hy
      exact Bool.eq_false_of_not_eq_true hx

theorem settled_number {draw : Binary64} {given : Option Value} (hk : spec.kind = .number)
    (h : spec.settled draw given = .ok value) :
    (∃ x, (∃ other ∈ given, other.number? = .ok (some x)) ∧ x.isFinite ∧
      value = .real (spec.clamp x)) ∨
      spec.IsDrawn given ∧ ∃ p, spec.gridPoint draw = .ok p ∧
        value = .real (Decimal.roundTo 4 (spec.clamp p)) := by
  obtain ⟨sampled, hsampled, h⟩ := bind_eq_ok.mp h
  rw [sample_number hk, bind_eq_ok] at hsampled
  obtain ⟨p, hp, hsampled⟩ := hsampled
  obtain rfl := pure_eq_ok.mp hsampled
  cases given with
  | none =>
    refine .inr ⟨⟨hk, ?_⟩, p, hp, (pure_eq_ok.mp h).symm⟩
    rintro _ ⟨⟩
  | some other =>
    rcases override_number hk h with ⟨x, hx, hfinite, hvalue⟩ | ⟨hdrawn, hvalue⟩
    · exact .inl ⟨x, ⟨other, rfl, hx⟩, hfinite, hvalue⟩
    · exact .inr ⟨hdrawn, p, hp, hvalue⟩

theorem settled_comesTo {s : Stream} {given : Option Value} (hm : spec.Measured)
    (h : spec.settled s.next.1 given = .ok value) : spec.ComesTo s.next.1 given value := by
  by_cases hk : spec.kind = .number
  · obtain ⟨hlow, hhigh, _⟩ := hm hk
    rcases settled_number hk h with ⟨x, ⟨other, hother, hx⟩, hfinite, rfl⟩ | ⟨hdrawn, p, hp, rfl⟩
    · have hadmits : spec.Admits (.real (spec.clamp x)) :=
        .number hk (clamp_within hk hlow hhigh (Binary64.isNan_of_isFinite hfinite))
      refine ⟨fun _ => hadmits, fun hdrawn => ?_, fun _ _ => hadmits⟩
      have hc := hdrawn.2 other hother x hx
      rw [hfinite] at hc
      cases hc
    · obtain ⟨q, hq, hnan⟩ := gridPoint_eq_ok hk hm s
      obtain rfl : q = p := Except.ok.inj (hq.symm.trans hp)
      have hwithin := clamp_within hk hlow hhigh hnan
      refine ⟨fun hc => absurd hdrawn hc, fun _ => ⟨q, hq, hwithin, rfl, ?_⟩,
        fun hlow4 hhigh4 => ?_⟩
      · rw [admits_real hk]
        exact and_iff_right (Decimal.isFinite_roundTo 4 hwithin.1)
      · exact .number hk (roundTo_within hlow hhigh hlow4 hhigh4 hwithin)
  · have hadmits : spec.Admits value := by
      obtain ⟨sampled, hsampled, h⟩ := bind_eq_ok.mp h
      cases given with
      | none =>
        obtain rfl := pure_eq_ok.mp h
        exact sample_admits hk hsampled
      | some other => exact override_admits hk h
    exact ⟨fun _ => hadmits, fun hdrawn => absurd hdrawn.1 hk, fun _ _ => hadmits⟩

end Settling

end ParamSpec

namespace Template

/-- Every parameter in turn has to come to a value. -/
theorem resolveFrom_eq_ok {s : Stream} {overrides resolved : Params} {schema : List ParamSpec}
    (hm : ∀ spec ∈ schema, spec.Measured) :
    (∃ params, resolveFrom s overrides resolved schema = .ok params) ↔
      ∀ spec ∈ schema, spec.Countable ∧
        ∀ value ∈ givenFor overrides spec.key, spec.Takes value := by
  induction schema generalizing s resolved with
  | nil => simp [resolveFrom]
  | cons spec schema ih =>
    obtain ⟨hspec, hschema⟩ := List.forall_mem_cons.mp hm
    rw [List.forall_mem_cons, ← ParamSpec.settled_eq_ok hspec s]
    constructor
    · rintro ⟨params, h⟩
      rw [resolveFrom_settled, bind_eq_ok] at h
      obtain ⟨value, hvalue, hrest⟩ := h
      exact ⟨⟨value, hvalue⟩, (ih hschema).mp ⟨params, hrest⟩⟩
    · rintro ⟨⟨value, hvalue⟩, hrest⟩
      obtain ⟨params, hparams⟩ := (ih hschema).mpr hrest
      refine ⟨params, ?_⟩
      rw [resolveFrom_settled, bind_eq_ok]
      exact ⟨value, hvalue, hparams⟩

/-- Parameters resolve unless an option list or an override is out of reach, and each of them
comes to a value that its schema entry admits, up to the places that a drawn number loses. -/
theorem resolve_admits {t : Template} (hm : ∀ spec ∈ t.schema, spec.Measured) (seed : String)
    (overrides : Params) :
    ((∃ params, t.resolve seed overrides = .ok params) ↔
      ∀ spec ∈ t.schema, spec.Countable ∧
        ∀ value ∈ givenFor overrides spec.key, spec.Takes value) ∧
    ∀ params, t.resolve seed overrides = .ok params →
      ∀ before spec after, t.schema = before ++ spec :: after →
        spec.key ∉ after.map ParamSpec.key → ∃ value, params.get? spec.key = some value ∧
          spec.ComesTo ((Stream.ofSeed seed).drawAt before.length) (givenFor overrides spec.key)
            value := by
  refine ⟨resolveFrom_eq_ok hm, ?_⟩
  intro params hparams before spec after hschema hlast
  rw [resolve, hschema] at hparams
  obtain ⟨value, hvalue, hget⟩ := resolveFrom_last hparams hlast
  have hspec : spec ∈ t.schema := by simp [hschema]
  exact ⟨value, hget, ParamSpec.settled_comesTo (hm spec hspec) hvalue⟩

end Template

section Thirds

def wet : ParamSpec := { key := "wet", kind := .number, high := 0.66666, step := 0.33333 }

/-- A template with a bound of more places than a draw keeps. -/
def thirds : Template where
  id := "thirds"
  label := "Thirds"
  schema := [wet]
  rules := { layers := [], phases := [], ids_nodup := by decide }

theorem thirds_measured : ∀ spec ∈ thirds.schema, spec.Measured := by decide +kernel

theorem thirds_admits : (∀ spec ∈ thirds.schema, spec.Measured) ∧ ∃ params value,
    thirds.resolve "abc123" [("wet", .int 3)] = .ok params ∧
    params.get? "wet" = some value ∧ wet.Admits value := by
  have hok : (thirds.resolve "abc123" [("wet", .int 3)]).isOk := by decide +kernel
  obtain ⟨params, hparams⟩ := eq_ok_of_isOk hok
  obtain ⟨_, hvalues⟩ := Template.resolve_admits thirds_measured "abc123" [("wet", .int 3)]
  obtain ⟨value, hget, hcomes⟩ := hvalues params hparams [] wet [] rfl (by simp)
  refine ⟨thirds_measured, params, value, hparams, hget, hcomes.undrawn ?_⟩
  rintro ⟨_, hinfinite⟩
  have hthree : ∃ y, (Value.int 3).number? = .ok (some y) ∧ y.isFinite := ⟨3, by decide +kernel⟩
  obtain ⟨y, hy, hfinite⟩ := hthree
  rw [hinfinite (.int 3) rfl y hy] at hfinite
  cases hfinite

/-- The last point of the grid is the bound, and it loses its fifth place upwards. -/
theorem thirds_exceeds : ∃ params, thirds.resolve "abc123" [] = .ok params ∧
    params.get? "wet" = some (.real 0.6667) ∧ ¬ wet.Admits (.real 0.6667) := by
  have hpoint : wet.gridPoint (Stream.ofSeed "abc123").next.1 = .ok wet.high := by decide +kernel
  have hround : Decimal.roundTo 4 (wet.clamp wet.high) = 0.6667 := by decide +kernel
  have hresolve : thirds.resolve "abc123" [] = .ok [("wet", .real 0.6667)] := by
    have hkind : wet.kind = .number := rfl
    have hsample := ParamSpec.sample_number hkind (Stream.ofSeed "abc123").next.1
    simp only [hpoint, bind, Except.bind, hround] at hsample
    show Template.resolveFrom _ [] [] [wet] = _
    rw [Template.resolveFrom_settled, ParamSpec.settled, hsample]
    rfl
  refine ⟨_, hresolve, rfl, ?_⟩
  rw [ParamSpec.admits_real rfl]
  rintro ⟨_, _, hhigh⟩
  exact hhigh (by decide +kernel)

end Thirds
end PatternLoom
