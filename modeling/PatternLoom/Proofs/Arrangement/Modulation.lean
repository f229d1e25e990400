import Mathlib
import PatternLoom.Arrangement
import PatternLoom.Proofs.Binary64.Order
import PatternLoom.Proofs.Catalog.Entries
import PatternLoom.Proofs.Piece.Parameters
import PatternLoom.Proofs.Piece.Rebuilding

/-! Parameters at an energy. Each key of the schema is scaled from what is given for it alone.
Numbers that are given end within their bounds; switches are written whether they are given or not,
so one that is missing is added and one that is no truth value becomes one. -/

namespace PatternLoom

namespace Table

variable {α : Type} {t : Table α} {key key' : String} {value : α}

theorem isSome_get? : (t.get? key).isSome ↔ key ∈ t.map (·.1) := by
  induction t with
  | nil => simp [get?]
  | cons entry rest ih =>
    obtain ⟨k, v⟩ := entry
    by_cases hk : k = key
    · simp [get?, hk]
    · simpa [get?, hk, Ne.symm hk] using ih

theorem map_fst_put : (t.put key value).map (·.1) =
    if key ∈ t.map (·.1) then t.map (·.1) else t.map (·.1) ++ [key] := by
  induction t with
  | nil => rfl
  | cons entry rest ih =>
    obtain ⟨k, v⟩ := entry
    rw [put]
    by_cases hk : k = key
    · simp [hk]
    · rw [if_neg hk, List.map_cons, ih]
      by_cases hmem : key ∈ rest.map (·.1) <;> simp [hmem, Ne.symm hk]

theorem put_of_get? (h : t.get? key = some value) : t.put key value = t := by
  induction t with
  | nil => cases h
  | cons entry rest ih =>
    obtain ⟨k, v⟩ := entry
    by_cases hk : k = key
    · rw [get?, if_pos hk] at h
      rw [put, if_pos hk, Option.some.inj h]
    · rw [get?, if_neg hk] at h
      rw [put, if_neg hk, ih h]

/-- The table with a key set, if there is something to set it to. -/
def putAny (t : Table α) (key : String) : Option α → Table α
  | some value => t.put key value
  | none => t

theorem get?_putAny_of_ne (h : key ≠ key') (value : Option α) :
    (t.putAny key value).get? key' = t.get? key' := by
  cases value with
  | none => rfl
  | some value => rw [putAny, get?_put, if_neg h]

theorem get?_putAny_self {value : Option α} (h : value = none → t.get? key = none) :
    (t.putAny key value).get? key = value := by
  cases value with
  | none => exact h rfl
  | some value => rw [putAny, get?_put, if_pos rfl]

theorem map_fst_putAny {value : Option α} (h : value.isSome → key ∈ t.map (·.1)) :
    (t.putAny key value).map (·.1) = t.map (·.1) := by
  cases value with
  | none => rfl
  | some value => rw [putAny, map_fst_put, if_pos (h rfl)]

end Table

theorem Decimal.isNan_roundTo (places : Nat) (x : Binary64) :
    (roundTo places x).isNan = x.isNan := by
  cases x with
  | nan => rfl
  | infinity _ => rfl
  | finite _ _ _ => exact Binary64.isNan_ofFraction _ _ _

theorem Binary64.not_nan_lt (x : Binary64) : ¬ nan < x := fun h =>
  Bool.noConfusion (isNan_of_lt h).1

theorem Value.exists_number? {value : Value}
    (h : ∀ n, value = .int n → ¬ Binary64.BeyondRange n.natAbs) :
    ∃ number, value.number? = .ok number := by
  cases value with
  | int n =>
    obtain ⟨x, hx, -⟩ := Binary64.ofInt_eq_ok (not_le.mp (h n rfl))
    exact ⟨some x, by rw [number?, hx]; rfl⟩
  | _ => exact ⟨_, rfl⟩

namespace ParamSpec

variable {spec : ParamSpec} {energy x : Binary64}

/-- A number moved towards its lower bound, as far as an energy takes it. -/
def scaled (spec : ParamSpec) (energy x : Binary64) : Binary64 :=
  spec.clamp (Decimal.roundTo 4 (spec.low + (x - spec.low) * energy))

/-- What stands for a parameter at an energy, from what stands for it before. -/
def atEnergy (spec : ParamSpec) (energy : Binary64) (current : Option Value) :
    Result (Option Value) :=
  match spec.kind with
  | .number => do
    match ← (current.getD .null).number? with
    | some x => return some (.real (spec.scaled energy x))
    | none => return current
  | .boolean => .ok (some (.bool (switchEnergy < energy || (current.getD .null).isTrue)))
  | .select => .ok current

theorem isNan_clamp_nan : (spec.clamp .nan).isNan = true := by
  rw [clamp, if_neg (Binary64.not_nan_lt _), if_neg (Binary64.not_lt_nan _)]
  rfl

/-- A number whose place between the bounds is a number as well. -/
def Scales (spec : ParamSpec) (energy x : Binary64) : Prop :=
  (spec.low + (x - spec.low) * energy).isNan = false ∧ spec.high.isNan = false

/-- Between finite bounds only a distance from the lower one that is out of range has no place, and
that only without any energy. -/
theorem scales_iff (hlow : spec.low.isFinite) (hhigh : spec.high.isFinite) (hx : x.isFinite)
    (henergy : energy.isFinite) :
    spec.Scales energy x ↔ (energy.isZero → (x - spec.low).isFinite) := by
  have hhigh' := Binary64.isNan_of_isFinite hhigh
  have hdistance : (x - spec.low).isNan = false := by
    cases hl : spec.low with
    | nan => rw [hl] at hlow; cases hlow
    | infinity _ => rw [hl] at hlow; cases hlow
    | finite a u hu => exact Binary64.isNan_add (Binary64.isNan_of_isFinite hx) rfl
  by_cases hfinite : (x - spec.low).isFinite
  · have hproduct := Binary64.isNan_mul hfinite henergy
    exact iff_of_true ⟨Binary64.isNan_finite_add hlow hproduct, hhigh'⟩ fun _ => hfinite
  · cases hd : x - spec.low with
    | nan => rw [hd] at hdistance; cases hdistance
    | finite _ _ _ => rw [hd] at hfinite; exact absurd rfl hfinite
    | infinity a =>
      obtain ⟨b, v, hv, rfl⟩ := Binary64.exists_finite henergy
      by_cases hv0 : v = 0
      · have hproduct : Binary64.infinity a * .finite b v hv = .nan := if_pos hv0
        have hnan : (spec.low + .nan).isNan = true := by
          cases spec.low <;> rfl
        have hstill : (Binary64.finite b v hv).isZero := Binary64.isZero_iff.mpr hv0
        refine iff_of_false ?_ fun h => absurd (h hstill) Bool.false_ne_true
        rw [Scales, hd, hproduct, hnan]
        exact fun h => Bool.noConfusion h.1
      · have hproduct : Binary64.infinity a * .finite b v hv = .infinity (a != b) := if_neg hv0
        have hmoves : ¬ (Binary64.finite b v hv).isZero := fun h => hv0 (Binary64.isZero_iff.mp h)
        refine iff_of_true ⟨?_, hhigh'⟩ fun h => absurd h hmoves
        rw [hd, hproduct]
        exact Binary64.isNan_finite_add hlow rfl

/-- Within the bounds exactly when the place between them is a number. -/
theorem scaled_within (hk : spec.kind = .number) (hlow : spec.low.isFinite)
    (hhigh : spec.high.isFinite) :
    (spec.low ≤ spec.scaled energy x ∧ spec.scaled energy x ≤ spec.high) ↔
      spec.Scales energy x := by
  have hlow' := Binary64.isNan_of_isFinite hlow
  have hhigh' := Binary64.isNan_of_isFinite hhigh
  rw [scaled, Scales, ← Decimal.isNan_roundTo 4]
  generalize Decimal.roundTo 4 (spec.low + (x - spec.low) * energy) = place
  constructor
  · rintro ⟨habove, -⟩
    refine ⟨?_, hhigh'⟩
    cases place with
    | nan => exact absurd (Binary64.isNan_of_le habove).2 (by simp [isNan_clamp_nan])
    | infinity _ => rfl
    | finite _ _ _ => rfl
  · rintro ⟨hplace, -⟩
    obtain ⟨hfinite, hbelow, habove⟩ := clamp_within hk hlow hhigh hplace
    have hnan := Binary64.isNan_of_isFinite hfinite
    exact ⟨Binary64.le_of_not_lt hnan hlow' hbelow, Binary64.le_of_not_lt hhigh' hnan habove⟩

/-- What is there stays there. -/
theorem eq_none_of_atEnergy {current : Option Value} (h : spec.atEnergy energy current = .ok none) :
    current = none := by
  cases hk : spec.kind with
  | boolean => simp [atEnergy, hk] at h
  | select => simpa [atEnergy, hk] using h
  | number =>
    simp only [atEnergy, hk, bind_eq_ok] at h
    obtain ⟨number, -, h⟩ := h
    cases number with
    | none => exact pure_eq_ok.mp h
    | some x => cases pure_eq_ok.mp h

/-- A switch that is not given. -/
def isMissing (params : Params) (spec : ParamSpec) : Bool :=
  spec.kind = .boolean && (params.get? spec.key).isNone

theorem isMissing_iff {params : Params} :
    isMissing params spec ↔ spec.kind = .boolean ∧ params.get? spec.key = none := by
  simp [isMissing]

/-- What is not there is there only if it is a switch. -/
theorem isMissing_of_atEnergy {params : Params} {value : Option Value}
    (h : spec.atEnergy energy (params.get? spec.key) = .ok value)
    (hget : params.get? spec.key = none) (hvalue : value.isSome) : isMissing params spec := by
  rw [hget] at h
  cases hk : spec.kind with
  | boolean => simp [isMissing, hk, hget]
  | select =>
    simp only [atEnergy, hk, Except.ok.injEq] at h
    rw [← h] at hvalue
    cases hvalue
  | number =>
    simp only [atEnergy, hk] at h
    rw [← pure_eq_ok.mp h] at hvalue
    cases hvalue

/-- Only an integer beyond the range of numbers stops it. -/
theorem atEnergy_eq_ok {current : Option Value} :
    (∃ value, spec.atEnergy energy current = .ok value) ↔
      (spec.kind = .number → ∀ n, current = some (.int n) → ¬ Binary64.BeyondRange n.natAbs) := by
  cases hk : spec.kind with
  | select => simp [atEnergy, hk]
  | boolean => simp [atEnergy, hk]
  | number =>
    rw [forall_prop_of_true rfl]
    by_cases hint : ∃ n, current = some (.int n) ∧ Binary64.BeyondRange n.natAbs
    · obtain ⟨n, rfl, hn⟩ := hint
      refine iff_of_false ?_ fun h => h n rfl hn
      rintro ⟨value, h⟩
      simp only [atEnergy, hk, Option.getD_some, Value.number?, bind_eq_ok,
        Binary64.ofInt_eq_error hn] at h
      obtain ⟨_, ⟨_, h, -⟩, -⟩ := h
      cases h
    · have hnot : ∀ n, current = some (.int n) → ¬ Binary64.BeyondRange n.natAbs :=
        fun n hn hb => hint ⟨n, hn, hb⟩
      have hgiven : ∀ n, current.getD .null = .int n → ¬ Binary64.BeyondRange n.natAbs := by
        intro n hn
        cases current with
        | none => cases hn
        | some value => exact hnot n (congrArg some hn)
      obtain ⟨number, hnumber⟩ := Value.exists_number? hgiven
      refine iff_of_true ?_ hnot
      rw [atEnergy, hk]
      simp only [hnumber]
      cases number <;> exact ⟨_, rfl⟩

end ParamSpec

section Run

variable {params out : Params} {energy : Binary64} {spec : ParamSpec} {schema : List ParamSpec}

theorem modulate_cons (params : Params) (energy : Binary64) (spec : ParamSpec)
    (schema : List ParamSpec) : modulate params energy (spec :: schema) = (do
      let value ← spec.atEnergy energy (params.get? spec.key)
      modulate (params.putAny spec.key value) energy schema) := by
  have hkeep : ∀ value, params.get? spec.key = value → params.putAny spec.key value = params := by
    rintro (_ | value) hget
    · rfl
    · exact Table.put_of_get? hget
  rw [modulate, ParamSpec.atEnergy]
  cases spec.kind with
  | boolean => rfl
  | select =>
    change modulate params energy schema = modulate (params.putAny _ _) energy schema
    rw [hkeep _ rfl]
  | number =>
    cases ((params.get? spec.key).getD .null).number? with
    | error e => rfl
    | ok number =>
      cases number with
      | some x => rfl
      | none =>
        change modulate params energy schema = modulate (params.putAny _ _) energy schema
        rw [hkeep _ rfl]

theorem get?_putAny_of_fresh {later : ParamSpec} (hfresh : spec.key ∉ schema.map ParamSpec.key)
    (hlater : later ∈ schema) (value : Option Value) :
    (params.putAny spec.key value).get? later.key = params.get? later.key := by
  refine Table.get?_putAny_of_ne (fun heq => hfresh ?_) value
  rw [heq]
  exact List.mem_map_of_mem hlater

/-- Each key of the schema ends as its parameter is at the energy, and no other key changes. -/
theorem get?_of_modulate (hkeys : (schema.map ParamSpec.key).Nodup)
    (h : modulate params energy schema = .ok out) :
    (∀ spec ∈ schema, spec.atEnergy energy (params.get? spec.key) = .ok (out.get? spec.key)) ∧
      ∀ key ∉ schema.map ParamSpec.key, out.get? key = params.get? key := by
  induction schema generalizing params with
  | nil =>
    obtain rfl := Except.ok.inj h
    exact ⟨by simp, fun _ _ => rfl⟩
  | cons spec schema ih =>
    obtain ⟨hfresh, hkeys⟩ := List.nodup_cons.mp hkeys
    obtain ⟨value, hvalue, h⟩ := bind_eq_ok.mp (modulate_cons params energy spec schema ▸ h)
    obtain ⟨hschema, hother⟩ := ih hkeys h
    have hself : out.get? spec.key = value := by
      rw [hother _ hfresh, Table.get?_putAny_self]
      rintro rfl
      exact ParamSpec.eq_none_of_atEnergy hvalue
    refine ⟨List.forall_mem_cons.mpr ⟨by rw [hself, hvalue], ?_⟩, ?_⟩
    · intro later hlater
      rw [← hschema later hlater, get?_putAny_of_fresh hfresh hlater]
    · intro key hkey
      obtain ⟨hne, hkey⟩ := List.ne_and_not_mem_of_not_mem_cons hkey
      rw [hother key hkey, Table.get?_putAny_of_ne hne.symm]

/-- The keys are those that are given and then those of the switches that are not. -/
theorem keys_of_modulate (hkeys : (schema.map ParamSpec.key).Nodup)
    (h : modulate params energy schema = .ok out) :
    out.map (·.1) =
      params.map (·.1) ++ (schema.filter (ParamSpec.isMissing params)).map ParamSpec.key := by
  induction schema generalizing params with
  | nil =>
    obtain rfl := Except.ok.inj h
    simp
  | cons spec schema ih =>
    obtain ⟨hfresh, hkeys⟩ := List.nodup_cons.mp hkeys
    obtain ⟨value, hvalue, h⟩ := bind_eq_ok.mp (modulate_cons params energy spec schema ▸ h)
    have hlater : schema.filter (ParamSpec.isMissing (params.putAny spec.key value)) =
        schema.filter (ParamSpec.isMissing params) := by
      refine List.filter_congr fun later hlater => ?_
      rw [ParamSpec.isMissing, ParamSpec.isMissing, get?_putAny_of_fresh hfresh hlater]
    rw [ih hkeys h, hlater]
    by_cases hmissing : ParamSpec.isMissing params spec
    · obtain ⟨hkind, hget⟩ := ParamSpec.isMissing_iff.mp hmissing
      have hnot : spec.key ∉ params.map (·.1) := by
        rw [← Table.isSome_get?, hget]
        exact Bool.false_ne_true
      simp only [ParamSpec.atEnergy, hkind, Except.ok.injEq] at hvalue
      rw [List.filter_cons_of_pos hmissing, ← hvalue, Table.putAny, Table.map_fst_put, if_neg hnot,
        List.append_assoc]
      rfl
    · have hthere : value.isSome → spec.key ∈ params.map (·.1) := by
        intro hsome
        by_contra hnot
        rw [← Table.isSome_get?, Option.not_isSome_iff_eq_none] at hnot
        exact hmissing (ParamSpec.isMissing_of_atEnergy hvalue hnot hsome)
      rw [List.filter_cons_of_neg hmissing, Table.map_fst_putAny hthere]

/-- It fails exactly when a number cannot be read. -/
theorem modulate_isOk (hkeys : (schema.map ParamSpec.key).Nodup) :
    (∃ out, modulate params energy schema = .ok out) ↔
      ∀ spec ∈ schema, ∃ value, spec.atEnergy energy (params.get? spec.key) = .ok value := by
  induction schema generalizing params with
  | nil => simp [modulate]
  | cons spec schema ih =>
    obtain ⟨hfresh, hkeys⟩ := List.nodup_cons.mp hkeys
    simp only [modulate_cons, bind_eq_ok, List.forall_mem_cons]
    rw [exists_comm]
    simp only [exists_and_left, ih hkeys]
    constructor
    · rintro ⟨value, hvalue, hschema⟩
      refine ⟨⟨value, hvalue⟩, fun later hlater => ?_⟩
      rw [← get?_putAny_of_fresh hfresh hlater value]
      exact hschema later hlater
    · rintro ⟨⟨value, hvalue⟩, hschema⟩
      refine ⟨value, hvalue, fun later hlater => ?_⟩
      rw [get?_putAny_of_fresh hfresh hlater]
      exact hschema later hlater

end Run

section Touching

variable (schema : List ParamSpec) (energy : Binary64) (params out : Params)

/-- What is neither a number nor a switch stays as it is, as do numbers that are none. -/
structure LeavesAlone : Prop where
  foreign : ∀ key ∉ schema.map ParamSpec.key, out.get? key = params.get? key
  select : ∀ spec ∈ schema, spec.kind = .select → out.get? spec.key = params.get? spec.key
  other : ∀ spec ∈ schema, spec.kind = .number → ∀ value, params.get? spec.key = some value →
    value.number? = .ok none → out.get? spec.key = some value

/-- Nothing changes but numbers, which end within their bounds, and switches above the energy at
which they are turned on. -/
structure TouchesOnly : Prop extends LeavesAlone schema params out where
  keys : out.map (·.1) = params.map (·.1)
  number : ∀ spec ∈ schema, spec.kind = .number → ∀ value x, params.get? spec.key = some value →
    value.number? = .ok (some x) → x.isFinite →
      ∃ y, out.get? spec.key = some (.real y) ∧ spec.low ≤ y ∧ y ≤ spec.high
  switch : ∀ spec ∈ schema, spec.kind = .boolean → ∀ value, params.get? spec.key = some value →
    out.get? spec.key = some (if switchEnergy < energy then .bool true else value)

/-- Bounds of numbers are finite, and no two parameters have one key. -/
structure WellKeyed : Prop where
  nodup : (schema.map ParamSpec.key).Nodup
  bounded : ∀ spec ∈ schema, spec.kind = .number → spec.low.isFinite ∧ spec.high.isFinite

end Touching

section Outcome

variable {schema : List ParamSpec} {energy x : Binary64} {params out : Params} {spec : ParamSpec}
  {value : Value}

theorem get?_number (hschema : WellKeyed schema) (h : modulate params energy schema = .ok out)
    (hspec : spec ∈ schema) (hk : spec.kind = .number) (hget : params.get? spec.key = some value)
    (hnumber : value.number? = .ok (some x)) :
    out.get? spec.key = some (.real (spec.scaled energy x)) := by
  have hself := (get?_of_modulate hschema.nodup h).1 spec hspec
  simp only [ParamSpec.atEnergy, hk, hget, Option.getD_some, hnumber] at hself
  exact (pure_eq_ok.mp hself).symm

theorem get?_switch (hschema : WellKeyed schema) (h : modulate params energy schema = .ok out)
    (hspec : spec ∈ schema) (hk : spec.kind = .boolean) : out.get? spec.key =
      some (.bool (switchEnergy < energy || ((params.get? spec.key).getD .null).isTrue)) := by
  have hself := (get?_of_modulate hschema.nodup h).1 spec hspec
  simp only [ParamSpec.atEnergy, hk, Except.ok.injEq] at hself
  exact hself.symm

theorem leavesAlone_of_modulate (hschema : WellKeyed schema)
    (h : modulate params energy schema = .ok out) : LeavesAlone schema params out := by
  obtain ⟨hself, hforeign⟩ := get?_of_modulate hschema.nodup h
  refine ⟨hforeign, fun spec hspec hk => ?_, fun spec hspec hk value hget hnumber => ?_⟩
  · have hselect := hself spec hspec
    simp only [ParamSpec.atEnergy, hk, Except.ok.injEq] at hselect
    exact hselect.symm
  · have hother := hself spec hspec
    simp only [ParamSpec.atEnergy, hk, hget, Option.getD_some, hnumber] at hother
    exact (pure_eq_ok.mp hother).symm

/-- No key is added exactly when each switch is given. -/
theorem keys_eq_iff (hschema : WellKeyed schema) (h : modulate params energy schema = .ok out) :
    out.map (·.1) = params.map (·.1) ↔
      ∀ spec ∈ schema, spec.kind = .boolean → ∃ value, params.get? spec.key = some value := by
  rw [keys_of_modulate hschema.nodup h, List.append_right_eq_self, List.map_eq_nil_iff,
    List.filter_eq_nil_iff]
  refine forall₂_congr fun spec _ => ?_
  rw [ParamSpec.isMissing_iff, not_and, ← Option.ne_none_iff_exists']

/-- A switch that is given ends as it should exactly when it is turned on or a truth value. -/
theorem switch_iff (hschema : WellKeyed schema) (h : modulate params energy schema = .ok out)
    (hspec : spec ∈ schema) (hk : spec.kind = .boolean) (hget : params.get? spec.key = some value) :
    out.get? spec.key = some (if switchEnergy < energy then .bool true else value) ↔
      (switchEnergy < energy ∨ ∃ b, value = .bool b) := by
  rw [get?_switch hschema h hspec hk, hget, Option.getD_some, Option.some.injEq]
  by_cases henergy : switchEnergy < energy
  · simp [henergy]
  · simp only [henergy, decide_false, Bool.false_or, if_false, false_or]
    constructor
    · exact fun h => ⟨_, h.symm⟩
    · rintro ⟨b, rfl⟩
      rfl

/-- A finite number ends within its bounds exactly when its distance from the lower one is finite,
or there is energy. -/
theorem number_iff (hschema : WellKeyed schema) (henergy : energy.isFinite)
    (h : modulate params energy schema = .ok out) (hspec : spec ∈ schema) (hk : spec.kind = .number)
    (hget : params.get? spec.key = some value) (hnumber : value.number? = .ok (some x))
    (hx : x.isFinite) :
    (∃ y, out.get? spec.key = some (.real y) ∧ spec.low ≤ y ∧ y ≤ spec.high) ↔
      (energy.isZero → (x - spec.low).isFinite) := by
  obtain ⟨hlow, hhigh⟩ := hschema.bounded spec hspec hk
  rw [← ParamSpec.scales_iff hlow hhigh hx henergy, ← ParamSpec.scaled_within hk hlow hhigh,
    get?_number hschema h hspec hk hget hnumber]
  simp

end Outcome

theorem Template.Regular.wellKeyed {t : Template} (ht : t.Regular) : WellKeyed t.schema :=
  ⟨ht.keys_nodup, fun spec hspec hk => ⟨(ht.placed spec hspec hk).1, (ht.placed spec hspec hk).2.1⟩⟩

/-- At a finite energy the parameters of a well-keyed schema are scaled unless one of its numbers is
an integer beyond the range of numbers. What is neither a number nor a switch is left alone in any
case. Nothing else is touched exactly when each switch is given and, up to the energy at which they
are turned on, is a truth value, and, without any energy, no number is so far from its lower bound
that the distance is infinite. -/
theorem modulate_touchesOnly {schema : List ParamSpec} (hschema : WellKeyed schema)
    (params : Params) {energy : Binary64} (henergy : energy.isFinite) :
    ((∃ out, modulate params energy schema = .ok out) ↔
      ∀ spec ∈ schema, spec.kind = .number → ∀ n, params.get? spec.key = some (.int n) →
        ¬ Binary64.BeyondRange n.natAbs) ∧
    ∀ out, modulate params energy schema = .ok out →
      LeavesAlone schema params out ∧
      (TouchesOnly schema energy params out ↔
        (∀ spec ∈ schema, spec.kind = .boolean → ∃ value, params.get? spec.key = some value ∧
          (switchEnergy < energy ∨ ∃ b, value = .bool b)) ∧
        ∀ spec ∈ schema, spec.kind = .number → ∀ value x, params.get? spec.key = some value →
          value.number? = .ok (some x) → x.isFinite → energy.isZero → (x - spec.low).isFinite) := by
  constructor
  · rw [modulate_isOk hschema.nodup]
    exact forall₂_congr fun spec _ => ParamSpec.atEnergy_eq_ok
  · intro out h
    have halone := leavesAlone_of_modulate hschema h
    refine ⟨halone, fun htouches => ⟨?_, ?_⟩, fun ⟨hswitches, hnumbers⟩ => ?_⟩
    · intro spec hspec hk
      obtain ⟨value, hget⟩ := (keys_eq_iff hschema h).mp htouches.keys spec hspec hk
      exact ⟨value, hget,
        (switch_iff hschema h hspec hk hget).mp (htouches.switch spec hspec hk value hget)⟩
    · intro spec hspec hk value x hget hnumber hx
      exact (number_iff hschema henergy h hspec hk hget hnumber hx).mp
        (htouches.number spec hspec hk value x hget hnumber hx)
    · refine { halone with keys := ?_, number := ?_, switch := ?_ }
      · refine (keys_eq_iff hschema h).mpr fun spec hspec hk => ?_
        obtain ⟨value, hget, -⟩ := hswitches spec hspec hk
        exact ⟨value, hget⟩
      · intro spec hspec hk value x hget hnumber hx
        exact (number_iff hschema henergy h hspec hk hget hnumber hx).mpr
          (hnumbers spec hspec hk value x hget hnumber hx)
      · intro spec hspec hk value hget
        obtain ⟨value', hget', hswitch⟩ := hswitches spec hspec hk
        obtain rfl := Option.some.inj (hget'.symm.trans hget)
        exact (switch_iff hschema h hspec hk hget).mpr hswitch

/-- The drive of the techno moves towards its lower bound, and the switch and a key that is not in
the schema stay. -/
theorem modulate_halfDrive : ∃ out,
    modulate [("drive", .real 0.8), ("tag", .text "x"), ("rotate", .bool false)] 0.5
      Catalog.Techno.template.schema = .ok out ∧
    TouchesOnly Catalog.Techno.template.schema 0.5
      [("drive", .real 0.8), ("tag", .text "x"), ("rotate", .bool false)] out := by
  have ht : Catalog.Techno.template ∈ catalog := by simp [catalog]
  have henergy : (0.5 : Binary64).isFinite := by decide +kernel
  have hmoves : ¬ (0.5 : Binary64).isZero := by decide +kernel
  obtain ⟨hok, htouches⟩ := modulate_touchesOnly (Template.regular_of_mem_catalog ht).wellKeyed
    [("drive", .real 0.8), ("tag", .text "x"), ("rotate", .bool false)] henergy
  obtain ⟨out, hout⟩ := hok.mpr (by simp [Catalog.Techno.template, Catalog.rotateSpec,
    Catalog.amountSpec, Catalog.unitSpec, Table.get?])
  refine ⟨out, hout, (htouches out hout).2.mpr ⟨?_, fun _ _ _ _ _ _ _ _ h => absurd h hmoves⟩⟩
  simp [Catalog.Techno.template, Catalog.rotateSpec, Catalog.amountSpec, Catalog.unitSpec,
    Table.get?]

/-- A switch that is not given is added, turned off. -/
theorem modulate_adds_rotate : ∃ out,
    modulate [("drive", .real 0.8)] 0.5 Catalog.Techno.template.schema = .ok out ∧
      out.get? "rotate" = some (.bool false) ∧
      ¬ TouchesOnly Catalog.Techno.template.schema 0.5 [("drive", .real 0.8)] out := by
  have hrotate : Catalog.rotateSpec ∈ Catalog.Techno.template.schema := by
    simp [Catalog.Techno.template]
  have ht : Catalog.Techno.template ∈ catalog := by simp [catalog]
  have hschema := (Template.regular_of_mem_catalog ht).wellKeyed
  obtain ⟨out, hout⟩ := eq_ok_of_isOk (x := modulate [("drive", .real 0.8)] 0.5
    Catalog.Techno.template.schema) (by decide +kernel)
  have hoff : decide (switchEnergy < 0.5) = false := by decide +kernel
  refine ⟨out, hout, ?_, fun h => ?_⟩
  · exact (get?_switch hschema hout hrotate rfl).trans (by rw [hoff]; rfl)
  · obtain ⟨value, hget⟩ := (keys_eq_iff hschema hout).mp h.keys _ hrotate rfl
    cases hget

end PatternLoom
