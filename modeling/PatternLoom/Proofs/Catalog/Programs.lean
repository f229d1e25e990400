import Mathlib
import PatternLoom.Proofs.Arrangement.Heading
import PatternLoom.Proofs.Catalog.Derivation
import PatternLoom.Proofs.Piece.Resolved
import PatternLoom.Proofs.Program.Playable
import PatternLoom.Proofs.Timeline.AnyLength

/-! Programs of the templates of the catalog. From parameters as they are resolved, each of them has
a program for every tempo above zero and every length, on its own phases or on one of them. -/

namespace PatternLoom

namespace Catalog

section Templates

variable {params : Params} {id layer : String} {phase : Option String} {l : Levels}

theorem Fits.modest (h : Fits params id phase layer l) : l.Modest := by
  have hone : (1 : Binary64) ≤ 8 := by decide +kernel
  refine ⟨fun g hg => ?_, fun x hx => ?_, fun x hx => ?_⟩
  · have hbetween := h.1.between g hg
    exact ⟨hbetween.isAmount, Binary64.le_trans hbetween.bounds.2.2 hone⟩
  · obtain ⟨hamount, -, hle⟩ := h.2.1 x hx
    exact ⟨hamount, hle⟩
  · obtain ⟨hamount, -, hle⟩ := h.2.2 x hx
    exact ⟨hamount, hle⟩

/-- The speed for each number of hits that a cycle may have. -/
theorem PolyrhythmGrid.modest_of_option {spec : ParamSpec}
    (hspec : spec ∈ PolyrhythmGrid.template.schema) {option : String} (h : option ∈ spec.options)
    {fallback x : Binary64} (hx : Value.toNumber fallback (some (.text option)) = .ok x) :
    ({ fast := some (Decimal.roundTo 3 (x / 4)) } : Levels).Modest := by
  have hall : ∀ spec ∈ PolyrhythmGrid.template.schema, ∀ option ∈ spec.options,
      ∃ x, Decimal.readNumber option = some x ∧ x.isFinite ∧
        (Decimal.roundTo 3 (x / 4)).Modest := by
    simp only [PolyrhythmGrid.template, List.forall_mem_cons, List.not_mem_nil, IsEmpty.forall_iff,
      implies_true, and_true]
    refine ⟨⟨?_, ?_, ?_⟩, ⟨?_, ?_, ?_⟩, List.forall_mem_nil _⟩
    · exact ⟨3, by decide +kernel, by decide +kernel, by decide +kernel⟩
    · exact ⟨4, by decide +kernel, by decide +kernel, by decide +kernel⟩
    · exact ⟨5, by decide +kernel, by decide +kernel, by decide +kernel⟩
    · exact ⟨5, by decide +kernel, by decide +kernel, by decide +kernel⟩
    · exact ⟨7, by decide +kernel, by decide +kernel, by decide +kernel⟩
    · exact ⟨9, by decide +kernel, by decide +kernel, by decide +kernel⟩
  obtain ⟨y, hread, hfinite, hmodest⟩ := hall spec hspec option h
  obtain rfl : x = y := by
    rw [Value.toNumber, hread] at hx
    simpa [hfinite] using hx.symm
  refine ⟨fun x hx => absurd hx (Option.not_mem_none x),
    fun x hx => absurd hx (Option.not_mem_none x), fun x hx => ?_⟩
  obtain rfl := Option.some.inj hx
  exact hmodest

theorem PolyrhythmGrid.adjust_modest (seed : String) (hp : PolyrhythmGrid.template.Resolved params)
    {a : Adjustments} (h : PolyrhythmGrid.adjust params seed = .ok a) : a.Modest := by
  simp only [PolyrhythmGrid.adjust, bind_eq_ok, pure_eq_ok] at h
  obtain ⟨x, hx, y, hy, rfl⟩ := h
  have hcycle : ∀ {key : String} {fallback z : Binary64},
      (∃ spec ∈ PolyrhythmGrid.template.schema, spec.key = key ∧ spec.kind = .select) →
      Value.toNumber fallback (params.get? key) = .ok z →
      ({ fast := some (Decimal.roundTo 3 (z / 4)) } : Levels).Modest := by
    rintro key fallback z ⟨spec, hspec, rfl, hkind⟩ hz
    obtain ⟨option, hoption, hget⟩ := hp.selected spec hspec hkind
    rw [hget] at hz
    exact modest_of_option hspec hoption hz
  have hfirst := hcycle ⟨_, List.mem_cons_self, rfl, rfl⟩ hx
  have hsecond := hcycle ⟨_, List.mem_cons_of_mem _ List.mem_cons_self, rfl, rfl⟩ hy
  refine ⟨⟨?_, List.forall_mem_nil _⟩, lilts_of_none rfl⟩
  exact List.forall_mem_cons.mpr ⟨hfirst, List.forall_mem_singleton.mpr hsecond⟩

end Templates

theorem adjust_modest {t : Template} (ht : t ∈ catalog) {params : Params} (hp : t.Resolved params)
    (seed : String) : ∃ a, t.adjust params seed = .ok a ∧ a.Modest := by
  obtain ⟨a, ha⟩ := adjust_eq_ok ht (Params.readable_of_forall hp.no_ints) seed
  refine ⟨a, ha, ?_⟩
  by_cases hid : t.id = "polyrhythm-grid"
  · obtain rfl := eq_polyrhythmGrid ht hid
    exact PolyrhythmGrid.adjust_modest seed hp ha
  · obtain ⟨hfits, hlilts⟩ := adjust_fits ht hid ha
    exact ⟨hfits.imp fun _ _ _ => Fits.modest, hlilts⟩

end Catalog

section Programs

variable {t : Template}

theorem RuleSet.Modest.focusedOn {rules : RuleSet} (h : rules.Modest) {phase : Phase}
    (hphase : phase ∈ rules.phases) : (rules.focusedOn phase).Modest where
  layers := h.layers
  phases := by
    intro p hp
    obtain rfl := List.mem_singleton.mp hp
    exact h.phases phase hphase

theorem modest_of_mem_catalog (ht : t ∈ catalog) : t.rules.Modest := by
  have hlayers : ∀ t ∈ catalog, ∀ layer ∈ t.rules.layers, layer.levels.Modest := by decide +kernel
  have hphases : ∀ t ∈ catalog, ∀ phase ∈ t.rules.phases, ∀ e ∈ phase.levels, e.2.Modest := by
    decide +kernel
  exact ⟨hlayers t ht, hphases t ht⟩

theorem focusedOn_segments {rules : RuleSet} (phase : Phase) (bars : Int) :
    ∃ segments, (rules.focusedOn phase).segments bars = .ok segments := by
  have hnan : (startShare phase.widened).isNan = false := by
    change (0 : Binary64).isNan = false
    decide +kernel
  exact ⟨_, segments_of_single rfl rfl hnan bars⟩

/-- A program on all phases, or on the one of a section. -/
theorem Template.program_eq_ok {params : Params} (ht : t ∈ catalog) (hp : t.Resolved params)
    {bpm bars : Binary64} (hfinite : bpm.isFinite) (hpos : ¬ bpm ≤ 0) {n : Int}
    (hbars : safeBars bars = .ok n) {focus : Option Phase}
    (hfocus : ∀ phase ∈ focus, phase ∈ t.rules.phases) (seed : String) :
    ∃ code, t.program bpm bars params seed (focus.map t.rules.focusedOn) = .ok code := by
  obtain ⟨a, ha, hmodest⟩ := Catalog.adjust_modest ht hp seed
  have hrules : ∃ code, ((focus.map t.rules.focusedOn).getD t.rules).program bpm bars seed a =
      .ok code := by
    cases focus with
    | none =>
      obtain ⟨m, rfl, hm, hrep⟩ := safeBars_representable hbars
      exact (modest_of_mem_catalog ht).program_eq_ok hmodest hfinite hpos hbars
        (segments_eq_ok ht hm hrep) seed
    | some phase =>
      exact ((modest_of_mem_catalog ht).focusedOn (hfocus phase rfl)).program_eq_ok hmodest hfinite
        hpos hbars (focusedOn_segments phase n) seed
  obtain ⟨code, hcode⟩ := hrules
  exact ⟨code, bind_eq_ok.mpr ⟨a, ha, hcode⟩⟩

end Programs

end PatternLoom
