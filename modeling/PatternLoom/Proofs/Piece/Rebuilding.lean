import Mathlib
import PatternLoom.Catalog
import PatternLoom.Piece
import PatternLoom.Proofs.Binary64.Whole
import PatternLoom.Proofs.Piece.Parameters
import PatternLoom.Proofs.Program.Shape

/-! Building a piece again from what it holds. Its parameters resolve to themselves, its bars
are a request for as many, and so the program comes out the same. -/

namespace PatternLoom
namespace Template

section Resolving

/-- The value of a parameter: of its override unless that is missing or null, else the sample. -/
def chosen (spec : ParamSpec) (overrides : Params) (sampled : Value) : Result Value :=
  match overrides.get? spec.key with
  | some given => if given.isNull then .ok sampled else spec.override given sampled
  | none => .ok sampled

theorem resolveFrom_cons (s : Stream) (overrides resolved : Params) (spec : ParamSpec)
    (schema : List ParamSpec) :
    resolveFrom s overrides resolved (spec :: schema) = (do
      let value ← chosen spec overrides (← spec.sample s.next.1)
      resolveFrom s.next.2 overrides (resolved.put spec.key value) schema) := by
  simp only [resolveFrom, chosen]
  congr 1
  funext sampled
  cases overrides.get? spec.key with
  | none => rfl
  | some given => cases hnull : given.isNull <;> simp only [hnull] <;> rfl

variable {s : Stream} {overrides resolved params : Params} {schema : List ParamSpec}

/-- Keys outside of the schema keep their values. -/
theorem get?_resolveFrom (h : resolveFrom s overrides resolved schema = .ok params) {key : String}
    (hkey : key ∉ schema.map ParamSpec.key) : params.get? key = resolved.get? key := by
  induction schema generalizing s resolved with
  | nil =>
    obtain rfl := Except.ok.inj h
    rfl
  | cons spec schema ih =>
    obtain ⟨hne, hrest⟩ := not_or.mp (List.mem_cons.not.mp hkey)
    simp only [resolveFrom_cons, bind_eq_ok] at h
    obtain ⟨sampled, _, value, _, h⟩ := h
    rw [ih h hrest, Table.get?_put, if_neg (Ne.symm hne)]

theorem keeps_chosen {spec : ParamSpec} {draw : Binary64} {sampled value : Value}
    (hp : spec.Placed) (hs : spec.sample draw = .ok sampled)
    (h : chosen spec overrides sampled = .ok value) : spec.Keeps value := by
  have hkeeps := ParamSpec.keeps_sample hp hs
  unfold chosen at h
  split at h
  · split at h
    · obtain rfl := Except.ok.inj h
      exact hkeeps
    · exact ParamSpec.keeps_override hp hkeeps h
  · obtain rfl := Except.ok.inj h
    exact hkeeps

theorem chosen_of_keeps {spec : ParamSpec} {sampled value : Value} (hk : spec.Keeps value)
    (h : overrides.get? spec.key = some value) : chosen spec overrides sampled = .ok value := by
  obtain ⟨hnull, htakes⟩ := hk
  rw [chosen, h]
  simp only [hnull]
  exact htakes sampled

/-- Overrides that agree with what the keys of the schema resolved to lead to the same. -/
theorem resolveFrom_again {given : Params} (hp : ∀ spec ∈ schema, spec.Placed)
    (hnodup : (schema.map ParamSpec.key).Nodup)
    (h : resolveFrom s overrides resolved schema = .ok params)
    (hgiven : ∀ spec ∈ schema, given.get? spec.key = params.get? spec.key) :
    resolveFrom s given resolved schema = .ok params := by
  induction schema generalizing s resolved with
  | nil => exact h
  | cons spec schema ih =>
    obtain ⟨hfresh, hnodup⟩ := List.nodup_cons.mp hnodup
    obtain ⟨hspec, hp⟩ := List.forall_mem_cons.mp hp
    obtain ⟨hvalue, hgiven⟩ := List.forall_mem_cons.mp hgiven
    simp only [resolveFrom_cons, bind_eq_ok] at h ⊢
    obtain ⟨sampled, hs, value, hv, h⟩ := h
    -- The key comes up only here, so its value is not replaced later.
    have hget : given.get? spec.key = some value := by
      rw [hvalue, get?_resolveFrom h hfresh, Table.get?_put, if_pos rfl]
    exact ⟨sampled, hs, value, chosen_of_keeps (keeps_chosen hspec hs hv) hget,
      ih hp hnodup h hgiven⟩

end Resolving

/-- A template whose parameters have keys of their own and bounds within the places of a
draw. -/
structure Regular (t : Template) : Prop where
  keys_nodup : (t.schema.map ParamSpec.key).Nodup
  placed : ∀ spec ∈ t.schema, spec.Placed

theorem Regular.resolve_again {t : Template} (ht : t.Regular) {seed : String}
    {overrides params : Params} (h : t.resolve seed overrides = .ok params) :
    t.resolve seed params = .ok params :=
  resolveFrom_again ht.placed ht.keys_nodup h fun _ _ => rfl

theorem regular_of_mem_catalog {t : Template} (h : t ∈ catalog) : t.Regular := by
  have hkeys : ∀ t ∈ catalog, (t.schema.map ParamSpec.key).Nodup := by decide +kernel
  have hplaced : ∀ t ∈ catalog, ∀ spec ∈ t.schema, spec.Placed := by decide +kernel
  exact ⟨hkeys t h, hplaced t h⟩

/-- The length that is asked for, that of the template if none is given. -/
def requestedBars (t : Template) (bars : Option Binary64) : Result Binary64 :=
  match bars with
  | some bars => .ok bars
  | none => Binary64.ofInt t.bars

theorem piece_eq (t : Template) (seed : String) (bpm bars : Option Binary64) (overrides : Params) :
    t.piece seed bpm bars overrides = (do
      let bars ← safeBars (← t.requestedBars bars)
      let params ← t.resolve seed overrides
      let code ← t.program (bpm.getD t.bpm) (← Binary64.ofInt bars) params seed none
      return ⟨t.label ++ " Sketch", t.id, bpm.getD t.bpm, bars, seed, params, code⟩) := by
  cases bars <;> rfl

theorem Regular.piece_again {t : Template} (ht : t.Regular) {seed : String}
    {bpm bars : Option Binary64} {overrides : Params} {p : Piece}
    (h : t.piece seed bpm bars overrides = .ok p) :
    ∃ x, Binary64.ofInt p.bars = .ok x ∧ t.piece p.seed (some p.bpm) (some x) p.params = .ok p := by
  simp only [piece_eq, bind_eq_ok, pure_eq_ok] at h
  obtain ⟨requested, _, n, hn, params, hparams, y, hy, code, hcode, rfl⟩ := h
  obtain ⟨x, hx, hbars⟩ := safeBars_safeBars hn
  refine ⟨x, hx, ?_⟩
  simp only [piece_eq, bind_eq_ok, pure_eq_ok]
  exact ⟨x, rfl, n, hbars, params, ht.resolve_again hparams, y, hy, code, hcode, rfl⟩

/-- A piece of the catalog is built again from its own seed, tempo, bars and parameters, and
parameters resolve to themselves. -/
theorem piece_rebuilds {t : Template} (ht : t ∈ catalog) (seed : String)
    (overrides : Params) :
    (∀ bpm bars p, t.piece seed bpm bars overrides = .ok p →
      ∃ x, Binary64.ofInt p.bars = .ok x ∧
        t.piece p.seed (some p.bpm) (some x) p.params = .ok p) ∧
    ∀ params, t.resolve seed overrides = .ok params → t.resolve seed params = .ok params :=
  ⟨fun _ _ _ h => (regular_of_mem_catalog ht).piece_again h,
    fun _ h => (regular_of_mem_catalog ht).resolve_again h⟩

end Template

section Grid

open Catalog.PolyrhythmGrid (template rules)

/-- Overrides of all sorts: an option given as an integer, a number that is none of the options,
a truth value from an integer, and a key that the template does not know. -/
def oddOverrides : Params :=
  [("cycle_a", .int 4), ("cycle_b", .real .nan), ("rotate", .int 0), ("depth", .text "deep")]

theorem polyrhythmGrid_piece :
    ∃ p, template.piece "abc123" (some 120) (some 2.5) oddOverrides = .ok p := by
  have hbars : safeBars 2.5 = .ok 3 := by decide +kernel
  have hsegments := @segments_of_single rules _ rfl rfl (by decide +kernel) 3
  have hok : (do
      let params ← template.resolve "abc123" oddOverrides
      let adjustments ← template.adjust params "abc123"
      segmentBlocks rules (homePatterns (.ofSeed "abc123") rules.layers)
        (adjustments.rotate.getD rules.rotate) adjustments 1
        (cover 3 1 0 [⟨{ id := "grid", layers := ["cycle-a", "cycle-b"], share := some (0, 1) }, 1, 3⟩])).isOk := by
    decide +kernel
  obtain ⟨blocks, hblocks⟩ := eq_ok_of_isOk hok
  simp only [bind_eq_ok] at hblocks
  obtain ⟨params, hparams, adjustments, hadjust, hblocks⟩ := hblocks
  obtain ⟨y, hy, hthree⟩ := safeBars_safeBars hbars
  have hprogram := (@program_eq_ok rules adjustments 120 y "abc123" _).mpr
    ⟨by decide +kernel, by decide +kernel, _, _, _, hthree, hsegments, hblocks, rfl⟩
  rw [Template.piece_eq]
  exact ⟨_, bind_eq_ok.mpr ⟨2.5, rfl, bind_eq_ok.mpr ⟨3, hbars, bind_eq_ok.mpr ⟨params, hparams,
    bind_eq_ok.mpr ⟨y, hy, bind_eq_ok.mpr ⟨_, bind_eq_ok.mpr ⟨adjustments, hadjust, hprogram⟩, rfl⟩⟩⟩⟩⟩⟩

theorem polyrhythmGrid_rebuilds :
    (∃ p, template.piece "abc123" (some 120) (some 2.5) oddOverrides = .ok p ∧
      ∃ x, Binary64.ofInt p.bars = .ok x ∧
        template.piece p.seed (some p.bpm) (some x) p.params = .ok p) ∧
    ∃ params, template.resolve "abc123" oddOverrides = .ok params ∧
      template.resolve "abc123" params = .ok params := by
  have hmem : template ∈ catalog := by simp [catalog]
  have hparams : (template.resolve "abc123" oddOverrides).isOk := by decide +kernel
  obtain ⟨p, hp⟩ := polyrhythmGrid_piece
  obtain ⟨params, hparams⟩ := eq_ok_of_isOk hparams
  obtain ⟨hrebuild, hresolve⟩ := Template.piece_rebuilds hmem "abc123" oddOverrides
  exact ⟨⟨p, hp, hrebuild _ _ p hp⟩, params, hparams, hresolve params hparams⟩

end Grid

end PatternLoom
