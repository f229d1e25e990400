import Mathlib
import PatternLoom.Proofs.Arrangement.Modulation
import PatternLoom.Proofs.Piece.Validity

/-! Parameters as a template resolves them: none of them is an integer, and each selection is one of
the options. Both stay so at any energy. -/

namespace PatternLoom

def Params.NoInts (params : Params) : Prop := ∀ e ∈ params, ∀ n, e.2 ≠ .int n

section NoInts

variable {params out : Params} {key : String} {value : Value}

theorem Params.NoInts.put (h : params.NoInts) (hvalue : ∀ n, value ≠ .int n) :
    NoInts (params.put key value) := by
  intro e he
  rcases Table.eq_or_mem_of_mem_put he with rfl | he
  · exact hvalue
  · exact h e he

theorem ParamSpec.Admits.ne_int {spec : ParamSpec} (h : spec.Admits value) (n : Int) :
    value ≠ .int n := by
  cases h <;> exact nofun

theorem ParamSpec.ComesTo.ne_int {spec : ParamSpec} {draw : Binary64} {given : Option Value}
    (h : spec.ComesTo draw given value) (n : Int) : value ≠ .int n := by
  by_cases hdrawn : spec.IsDrawn given
  · obtain ⟨p, -, -, rfl, -⟩ := h.drawn hdrawn
    exact nofun
  · exact (h.undrawn hdrawn).ne_int n

theorem noInts_resolveFrom {s : Stream} {overrides : Params} {schema : List ParamSpec}
    (hm : ∀ spec ∈ schema, spec.Measured) (hp : params.NoInts)
    (h : Template.resolveFrom s overrides params schema = .ok out) : out.NoInts := by
  induction schema generalizing s params with
  | nil =>
    obtain rfl := Except.ok.inj h
    exact hp
  | cons spec schema ih =>
    obtain ⟨hspec, hschema⟩ := List.forall_mem_cons.mp hm
    rw [Template.resolveFrom_settled, bind_eq_ok] at h
    obtain ⟨value, hvalue, h⟩ := h
    exact ih hschema (hp.put (ParamSpec.settled_comesTo hspec hvalue).ne_int) h

theorem ParamSpec.atEnergy_ne_int {spec : ParamSpec} {energy : Binary64}
    (hp : ∀ n, params.get? key ≠ some (.int n))
    (h : spec.atEnergy energy (params.get? key) = .ok (some value)) (n : Int) : value ≠ .int n := by
  rintro rfl
  cases hk : spec.kind with
  | boolean =>
    simp only [atEnergy, hk] at h
    cases h
  | select =>
    simp only [atEnergy, hk, Except.ok.injEq] at h
    exact hp n h
  | number =>
    simp only [atEnergy, hk] at h
    obtain ⟨number, -, h⟩ := bind_eq_ok.mp h
    cases number with
    | some x => cases h
    | none => exact hp n (pure_eq_ok.mp h)

theorem Params.NoInts.get?_ne (h : params.NoInts) (key : String) (n : Int) :
    params.get? key ≠ some (.int n) :=
  fun hget => h _ (Table.mem_of_get? hget) n rfl

theorem noInts_modulate {energy : Binary64} {schema : List ParamSpec} (hp : params.NoInts)
    (h : modulate params energy schema = .ok out) : out.NoInts := by
  induction schema generalizing params with
  | nil =>
    obtain rfl := Except.ok.inj h
    exact hp
  | cons spec schema ih =>
    rw [modulate_cons, bind_eq_ok] at h
    obtain ⟨value, hvalue, h⟩ := h
    refine ih ?_ h
    cases value with
    | none => exact hp
    | some value => exact hp.put (ParamSpec.atEnergy_ne_int (hp.get?_ne spec.key) hvalue)

end NoInts

/-- Parameters that a resolution may come to, as far as selections and kinds go. -/
structure Template.Resolved (t : Template) (params : Params) : Prop where
  no_ints : params.NoInts
  selected : ∀ spec ∈ t.schema, spec.kind = .select →
    ∃ option ∈ spec.options, params.get? spec.key = some (.text option)

/-- Parameters can be drawn, and there are options for every selection. -/
structure Template.Drawable (t : Template) : Prop extends t.Regular where
  measured : ∀ spec ∈ t.schema, spec.Measured
  countable : ∀ spec ∈ t.schema, spec.Countable
  offers : ∀ spec ∈ t.schema, spec.kind = .select → spec.options ≠ []
  no_ints : t.defaults.NoInts

section Resolving

variable {t : Template} {params : Params}

theorem Template.Drawable.resolved (ht : t.Drawable) {seed : String} {overrides : Params}
    (h : t.resolve seed overrides = .ok params) : t.Resolved params := by
  refine ⟨noInts_resolveFrom ht.measured ht.no_ints h, fun spec hspec hk => ?_⟩
  obtain ⟨before, after, hschema⟩ := List.append_of_mem hspec
  have hfresh : spec.key ∉ after.map ParamSpec.key := by
    have hkeys := ht.keys_nodup
    rw [hschema, List.map_append, List.map_cons] at hkeys
    exact (List.nodup_cons.mp hkeys.of_append_right).1
  rw [resolve, hschema] at h
  obtain ⟨value, hvalue, hget⟩ := resolveFrom_last h hfresh
  have hcomes := ParamSpec.settled_comesTo (ht.measured spec hspec) hvalue
  have hadmits := hcomes.undrawn fun hdrawn => absurd (hk.symm.trans hdrawn.1) (by decide)
  cases hadmits with
  | option _ offered => exact ⟨_, offered (ht.offers spec hspec hk), hget⟩
  | number hnumber _ =>
    rw [hk] at hnumber
    cases hnumber
  | truth hboolean =>
    rw [hk] at hboolean
    cases hboolean

/-- At an energy they are still such parameters. -/
theorem Template.Resolved.atEnergy (h : t.Resolved params) (ht : t.Drawable) (energy : Binary64) :
    ∃ out, modulate params energy t.schema = .ok out ∧ t.Resolved out := by
  have hsettles : ∀ spec ∈ t.schema, ∃ value,
      spec.atEnergy energy (params.get? spec.key) = .ok value := fun spec _ =>
    ParamSpec.atEnergy_eq_ok.mpr fun _ n hget => absurd hget (h.no_ints.get?_ne spec.key n)
  obtain ⟨out, hout⟩ := (modulate_isOk ht.keys_nodup).mpr hsettles
  refine ⟨out, hout, noInts_modulate h.no_ints hout, fun spec hspec hk => ?_⟩
  rw [(leavesAlone_of_modulate ht.wellKeyed hout).select spec hspec hk]
  exact h.selected spec hspec hk

theorem Template.drawable_of_mem_catalog (ht : t ∈ catalog) : t.Drawable := by
  have hmeasured : ∀ t ∈ catalog, ∀ spec ∈ t.schema, spec.Measured := by decide +kernel
  have hcount : ∀ t ∈ catalog, ∀ spec ∈ t.schema, spec.options.length ≤ 2 ^ 110 := by decide +kernel
  have hoffers : ∀ t ∈ catalog, ∀ spec ∈ t.schema, spec.kind = .select → spec.options ≠ [] := by
    decide +kernel
  have hdefaults : ∀ t ∈ catalog, ∀ e ∈ t.defaults, (e.2 matches .int _) = false := by
    decide +kernel
  refine ⟨regular_of_mem_catalog ht, hmeasured t ht, fun spec hspec _ =>
    not_le.mp (Binary64.not_beyondRange (hcount t ht spec hspec)), hoffers t ht, ?_⟩
  intro e he n heq
  have hplain := hdefaults t ht e he
  rw [heq] at hplain
  cases hplain

end Resolving

end PatternLoom
