import Mathlib
import PatternLoom.Proofs.Piece.Rebuilding
import PatternLoom.Proofs.Stream.Position

/-! Parameters that do not disturb each other. The draw of a parameter is the one at its place in
the schema, so what is given for one key never reaches the value of another. -/

namespace PatternLoom

/-- What overrides hold for a key, where null stands for nothing. -/
def givenFor (overrides : Params) (key : String) : Option Value :=
  (overrides.get? key).filter fun value => !value.isNull

/-- The value of a parameter from its own draw and what is given for it. -/
def ParamSpec.settled (spec : ParamSpec) (draw : Binary64) (given : Option Value) :
    Result Value := do
  let sampled ← spec.sample draw
  match given with
  | none => return sampled
  | some value => spec.override value sampled

namespace Template

theorem chosen_eq (spec : ParamSpec) (overrides : Params) (sampled : Value) :
    chosen spec overrides sampled = match givenFor overrides spec.key with
      | none => .ok sampled
      | some value => spec.override value sampled := by
  unfold chosen givenFor
  cases overrides.get? spec.key with
  | none => rfl
  | some value => by_cases hnull : value.isNull <;> simp [Option.filter, hnull]

theorem resolveFrom_settled (s : Stream) (overrides resolved : Params) (spec : ParamSpec)
    (schema : List ParamSpec) :
    resolveFrom s overrides resolved (spec :: schema) = (do
      let value ← spec.settled s.next.1 (givenFor overrides spec.key)
      resolveFrom s.advance overrides (resolved.put spec.key value) schema) := by
  rw [resolveFrom_cons, ParamSpec.settled]
  cases spec.sample s.next.1 with
  | error e => rfl
  | ok sampled =>
    simp only [bind, Except.bind, chosen_eq]
    cases givenFor overrides spec.key <;> rfl

/-- The last parameter under a key settles it, by the draw at its place. -/
theorem resolveFrom_last {s : Stream} {overrides resolved params : Params}
    {before after : List ParamSpec} {spec : ParamSpec}
    (h : resolveFrom s overrides resolved (before ++ spec :: after) = .ok params)
    (hlast : spec.key ∉ after.map ParamSpec.key) :
    ∃ value, spec.settled (s.drawAt before.length) (givenFor overrides spec.key) = .ok value ∧
      params.get? spec.key = some value := by
  induction before generalizing s resolved with
  | nil =>
    rw [List.nil_append, resolveFrom_settled, bind_eq_ok] at h
    obtain ⟨value, hvalue, hrest⟩ := h
    refine ⟨value, hvalue, ?_⟩
    rw [get?_resolveFrom hrest hlast, Table.get?_put, if_pos rfl]
  | cons first before ih =>
    -- Whatever the parameter in front comes to, it takes one draw.
    rw [List.cons_append, resolveFrom_settled, bind_eq_ok] at h
    obtain ⟨_, _, hrest⟩ := h
    rw [List.length_cons, Stream.drawAt_succ]
    exact ih hrest

theorem exists_last_of_mem {key : String} {schema : List ParamSpec}
    (h : key ∈ schema.map ParamSpec.key) : ∃ before spec after,
      schema = before ++ spec :: after ∧ spec.key = key ∧ key ∉ after.map ParamSpec.key := by
  induction schema with
  | nil => simp at h
  | cons first schema ih =>
    by_cases hlater : key ∈ schema.map ParamSpec.key
    · obtain ⟨before, spec, after, rfl, hkey, hlast⟩ := ih hlater
      exact ⟨first :: before, spec, after, rfl, hkey, hlast⟩
    · have hfirst : first.key = key := by
        rw [List.map_cons, List.mem_cons] at h
        exact (h.resolve_right hlater).symm
      exact ⟨[], first, schema, rfl, hfirst, hlater⟩

/-- Two resolutions from one seed agree on every key for which the same is given, whatever is
given for other keys: a key has its own draw, the one at its last place in the schema. Keys
outside of the schema keep their defaults. -/
theorem resolve_isolates {t : Template} {seed : String} {given other params params' : Params}
    (h : t.resolve seed given = .ok params) (h' : t.resolve seed other = .ok params') :
    (∀ key ∈ t.schema.map ParamSpec.key, givenFor given key = givenFor other key →
      params.get? key = params'.get? key) ∧
    (∀ before spec after, t.schema = before ++ spec :: after →
      spec.key ∉ after.map ParamSpec.key → ∃ value,
        spec.settled ((Stream.ofSeed seed).drawAt before.length) (givenFor given spec.key) =
          .ok value ∧ params.get? spec.key = some value) ∧
    ∀ key, key ∉ t.schema.map ParamSpec.key → params.get? key = t.defaults.get? key := by
  have hdrawn : ∀ {overrides resolved before spec after},
      t.resolve seed overrides = .ok resolved → t.schema = before ++ spec :: after →
      spec.key ∉ after.map ParamSpec.key → ∃ value,
        spec.settled ((Stream.ofSeed seed).drawAt before.length) (givenFor overrides spec.key) =
          .ok value ∧ resolved.get? spec.key = some value := by
    intro overrides resolved before spec after hok hschema hlast
    rw [resolve, hschema] at hok
    exact resolveFrom_last hok hlast
  refine ⟨?_, fun _ _ _ => hdrawn h, fun key hkey => get?_resolveFrom h hkey⟩
  intro key hkey hsame
  obtain ⟨before, spec, after, hschema, rfl, hlast⟩ := exists_last_of_mem hkey
  obtain ⟨value, hvalue, hget⟩ := hdrawn h hschema hlast
  obtain ⟨value', hvalue', hget'⟩ := hdrawn h' hschema hlast
  rw [hsame, hvalue'] at hvalue
  rw [hget, hget', Except.ok.inj hvalue]

end Template

section Grid

open Catalog.PolyrhythmGrid (template)

/-- Overrides that hold the same as `oddOverrides` for one key only. -/
def plainOverrides : Params := [("rotate", .int 0), ("cycle_a", .text "5"), ("depth", .null)]

theorem polyrhythmGrid_isolates : ∃ params params',
    template.resolve "abc123" oddOverrides = .ok params ∧
    template.resolve "abc123" plainOverrides = .ok params' ∧
    params.get? "rotate" = params'.get? "rotate" ∧ params.get? "depth" = none := by
  have hodd : (template.resolve "abc123" oddOverrides).isOk := by decide +kernel
  have hplain : (template.resolve "abc123" plainOverrides).isOk := by decide +kernel
  obtain ⟨params, hparams⟩ := eq_ok_of_isOk hodd
  obtain ⟨params', hparams'⟩ := eq_ok_of_isOk hplain
  obtain ⟨hsame, _, hdefaults⟩ := Template.resolve_isolates hparams hparams'
  exact ⟨params, params', hparams, hparams', hsame "rotate" (by decide) rfl,
    hdefaults "depth" (by decide)⟩

end Grid
end PatternLoom
