import Mathlib
import PatternLoom.Command.Run
import PatternLoom.Proofs.Arrangement.Focus
import PatternLoom.Proofs.Catalog.Programs
import PatternLoom.Proofs.Command.Reports
import PatternLoom.Proofs.Piece.Overflow

/-! Which builds fail without a report. From parameters that resolve there is always a program, or
the tempo is refused with a report, so what is left are documents that cannot be read and integers
out of range. -/

namespace PatternLoom

open Binary64 (BeyondRange)

section Building

variable {t : Template} {params : Params}

theorem exists_safeBars (x : Binary64) : ∃ n, safeBars x = .ok n := by
  unfold safeBars
  split
  · rename_i hfinite
    obtain ⟨k, hk⟩ := Binary64.roundHalfUp_eq_ok hfinite
    exact ⟨_, bind_eq_ok.mpr ⟨k, hk, rfl⟩⟩
  · exact ⟨1, rfl⟩

theorem Template.not_unreported_program (ht : t ∈ catalog) (hp : t.Resolved params)
    {focus : Option Phase} (hfocus : ∀ phase ∈ focus, phase ∈ t.rules.phases) (bpm bars : Binary64)
    (seed : String) :
    ¬ Unreported (t.program bpm bars params seed (focus.map t.rules.focusedOn)) := by
  obtain ⟨n, hbars⟩ := exists_safeBars bars
  by_cases htempo : bpm.isFinite ∧ ¬ bpm ≤ 0
  · obtain ⟨code, hcode⟩ := program_eq_ok ht hp htempo.1 htempo.2 hbars hfocus seed
    rw [hcode]
    exact not_unreported_ok code
  · obtain ⟨a, ha, -⟩ := Catalog.adjust_modest ht hp seed
    have hrefused : ((focus.map t.rules.focusedOn).getD t.rules).program bpm bars seed a =
        .error (.tempoNotPositive bpm) := by
      rw [RuleSet.program, if_pos (by simpa [or_iff_not_imp_left] using htempo)]
      rfl
    rw [Template.program, unreported_bind_ok ha, hrefused]
    exact not_unreported_error rfl

theorem Template.unreported_resolve (ht : t ∈ catalog) {overrides : Params} {seed : String} :
    Unreported (t.resolve seed overrides) ↔ t.Overflows overrides := by
  have hdrawable := drawable_of_mem_catalog ht
  rw [← hdrawable.resolve_eq_beyondRange]
  constructor
  · rintro ⟨e, he, hnone⟩
    rcases hdrawable.resolve_error he with rfl | rfl
    · exact he
    · cases hnone
  · intro h
    exact ⟨_, h, rfl⟩

theorem Template.unreported_piece (ht : t ∈ catalog) (seed : String) (bpm bars : Option Binary64)
    (overrides : Params) : Unreported (t.piece seed bpm bars overrides) ↔ t.Overflows overrides := by
  have hrequested : ∃ x, t.requestedBars bars = .ok x := by
    cases bars with
    | some x => exact ⟨x, rfl⟩
    | none =>
      have hall : ∀ t ∈ catalog, t.bars.natAbs ≤ 2 ^ 110 := by decide
      obtain ⟨x, hx, _⟩ := Binary64.ofInt_eq_ok (not_le.mp (Binary64.not_beyondRange (hall t ht)))
      exact ⟨x, hx⟩
  obtain ⟨requested, hrequested⟩ := hrequested
  obtain ⟨n, hn⟩ := exists_safeBars requested
  obtain ⟨x, hx, -⟩ := safeBars_safeBars hn
  rw [piece_eq, unreported_bind_ok hrequested, unreported_bind_ok hn, ← unreported_resolve ht]
  refine unreported_followed fun params hparams => ?_
  rw [unreported_bind_ok hx]
  have hresolved := (drawable_of_mem_catalog ht).resolved hparams
  have hwhole : ∀ phase ∈ (none : Option Phase), phase ∈ t.rules.phases :=
    fun phase hphase => absurd hphase (Option.not_mem_none phase)
  exact not_unreported_bind (not_unreported_program ht hresolved hwhole (bpm.getD t.bpm) x seed)
    fun code _ => not_unreported_ok _

end Building

section Arranging

variable {t : Template} {params : Params}

theorem Template.exists_focusOf (ht : t ∈ catalog) (focused : Bool) {index : Nat}
    (hindex : index < 5) : ∃ focus, t.focusOf focused 5 index = .ok focus := by
  have hall : ∀ t ∈ catalog, ∀ focused, ∀ index < 5, (t.focusOf focused 5 index).isOk := by
    decide +kernel
  exact eq_ok_of_isOk (hall t ht focused index hindex)

theorem Template.not_unreported_arrangedSection (ht : t ∈ catalog) (hp : t.Resolved params)
    (seed : String) (bpm : Binary64) (focused : Bool) {index : Nat} (hindex : index < 5)
    (label : String) {bars : Int} (hbars : bars.natAbs ≤ 2 ^ 110) :
    ¬ Unreported (t.arrangedSection seed bpm params focused 5 index label bars) := by
  obtain ⟨own, hown, hresolved⟩ := hp.atEnergy (drawable_of_mem_catalog ht) (sectionEnergy index)
  obtain ⟨focus, hfocus⟩ := exists_focusOf ht focused hindex
  obtain ⟨length, hlength, _⟩ := Binary64.ofInt_eq_ok (not_le.mp (Binary64.not_beyondRange hbars))
  rw [arrangedSection_eq, unreported_bind_ok hown, unreported_bind_ok hfocus,
    unreported_bind_ok hlength]
  refine not_unreported_bind (not_unreported_program ht hresolved ?_ bpm length _)
    fun code _ => not_unreported_ok _
  rintro phase rfl
  exact mem_of_focusOf hfocus

theorem Template.not_unreported_arrangedSections (ht : t ∈ catalog) (hp : t.Resolved params)
    (seed : String) (bpm : Binary64) (focused : Bool) {plan : List (String × Int)} {index : Nat}
    (hindex : index + plan.length ≤ 5) (hplan : ∀ entry ∈ plan, entry.2.natAbs ≤ 2 ^ 110) :
    ¬ Unreported (t.arrangedSections seed bpm params focused 5 index plan) := by
  induction plan generalizing index with
  | nil => exact not_unreported_ok []
  | cons entry plan ih =>
    obtain ⟨label, bars⟩ := entry
    obtain ⟨hbars, hplan⟩ := List.forall_mem_cons.mp hplan
    rw [List.length_cons] at hindex
    refine not_unreported_bind
      (not_unreported_arrangedSection ht hp seed bpm focused (by omega) label hbars) fun s _ => ?_
    exact not_unreported_bind (ih (by omega) hplan) fun more _ => not_unreported_ok _

theorem not_unreported_blueprint (style : String) : ¬ Unreported (blueprint style) := by
  unfold blueprint
  split
  · exact not_unreported_ok _
  · exact not_unreported_error rfl

theorem not_unreported_lengthBars (length : String) : ¬ Unreported (lengthBars length) := by
  unfold lengthBars
  split
  · exact not_unreported_ok _
  · exact not_unreported_error rfl

theorem not_unreported_allocateBars {style length : String} {b : Blueprint} {total : Nat}
    (hb : blueprint style = .ok b) (htotal : lengthBars length = .ok total) :
    ¬ Unreported (allocateBars total b.weights leastSectionBars) := by
  have hall : ∀ b ∈ blueprints, ∀ entry ∈ lengths,
      (allocateBars entry.2 b.weights leastSectionBars).isOk := by decide +kernel
  obtain ⟨plan, hplan⟩ := eq_ok_of_isOk (hall b (mem_of_blueprint hb) _ (mem_of_lengthBars htotal))
  rw [hplan]
  exact not_unreported_ok plan

theorem Template.not_unreported_arrange (ht : t ∈ catalog) (hp : t.Resolved params) (seed : String)
    (bpm : Binary64) (style length : String) (focused : Bool) :
    ¬ Unreported (t.arrange seed bpm style length (some params) focused) := by
  refine not_unreported_bind (not_unreported_blueprint style) fun b hb => ?_
  refine not_unreported_bind (not_unreported_lengthBars length) fun total htotal => ?_
  refine not_unreported_bind (not_unreported_allocateBars hb htotal) fun plan hplan => ?_
  obtain ⟨hfive, hfills, hmost⟩ := plan_of_blueprint hb htotal hplan
  rw [hfive]
  refine not_unreported_bind (not_unreported_arrangedSections ht hp seed bpm focused ?_ ?_)
    fun arranged _ => not_unreported_ok _
  · rw [List.length_zip, hfive, zero_add]
    exact min_le_right _ 5
  · rintro ⟨label, bars⟩ hentry
    have hmem := (List.of_mem_zip hentry).2
    have hleast := hfills.le bars hmem
    have hbound := hmost bars hmem
    unfold leastSectionBars at hleast
    have hsmall : 128 ≤ 2 ^ 110 := by decide
    exact (show bars.natAbs ≤ 128 by omega).trans hsmall

end Arranging

section Overriding

/-- An item whose value is a document that fails to be read, without a report. -/
def Garbled (item : String) : Prop :=
  ∃ key value, partItem item.toList = some (key, value) ∧ (trim key).isEmpty = false ∧
    (trim value).isEmpty = false ∧ Unreported (Yaml.load (String.ofList value))

/-- The first item that cannot be read is garbled. -/
def GarbledIn (items : List String) : Prop :=
  StopsAt (fun item => ∃ entry, readOverride item = .ok entry) Garbled items

theorem unreported_readOverride {item : String} : Unreported (readOverride item) ↔ Garbled item := by
  have hmalformed : ¬ Unreported (.error (.malformedOverride item) : Result (String × Value)) :=
    not_unreported_error rfl
  unfold readOverride Garbled
  cases hparts : partItem item.toList with
  | none =>
    refine iff_of_false hmalformed ?_
    rintro ⟨key, value, h, -⟩
    cases h
  | some parts =>
    obtain ⟨key, value⟩ := parts
    simp only [Option.some.injEq, Prod.mk.injEq]
    cases hkey : (trim key).isEmpty with
    | true =>
      refine iff_of_false hmalformed ?_
      rintro ⟨_, _, ⟨rfl, rfl⟩, h, -⟩
      rw [hkey] at h
      cases h
    | false =>
      cases hvalue : (trim value).isEmpty with
      | true =>
        refine iff_of_false (not_unreported_ok _) ?_
        rintro ⟨_, _, ⟨rfl, rfl⟩, -, h, -⟩
        rw [hvalue] at h
        cases h
      | false =>
        refine (unreported_followed fun _ _ => not_unreported_ok _).trans ?_
        constructor
        · exact fun h => ⟨key, value, ⟨rfl, rfl⟩, hkey, hvalue, h⟩
        · rintro ⟨_, _, ⟨rfl, rfl⟩, -, -, h⟩
          exact h

theorem unreported_readOverrides {items : List String} :
    Unreported (readOverrides items) ↔ GarbledIn items := by
  have hfrom : ∀ params, Unreported (readOverridesFrom params items) ↔ GarbledIn items := by
    intro params
    induction items generalizing params with
    | nil => exact iff_of_false (not_unreported_ok params) not_stopsAt_nil
    | cons item items ih =>
      rw [GarbledIn, stopsAt_cons, readOverridesFrom, unreported_bind, unreported_readOverride]
      refine or_congr_right ?_
      constructor
      · rintro ⟨entry, hentry, hrest⟩
        exact ⟨⟨entry, hentry⟩, (ih _).mp hrest⟩
      · rintro ⟨⟨entry, hentry⟩, hrest⟩
        exact ⟨entry, hentry, (ih _).mpr hrest⟩
  exact hfrom []

end Overriding

section Requests

/-- A value that has no values in it. -/
def Value.IsSingle : Value → Prop
  | .list _ | .map _ => False
  | _ => True

/-- Settings whose sections hold single values. -/
def FlatSettings (settings : Value) : Prop :=
  ∃ entries, settings = .map entries ∧ ∀ name own, Section.get? entries name = some (.map own) →
    ∀ key value, Section.get? own key = some value → value.IsSingle

variable {settings : Value}

theorem FlatSettings.section_eq_ok (h : FlatSettings settings) (name : String) :
    ∃ own, Settings.section? settings name = .ok own ∧
      ∀ key value, Section.get? own key = some value → value.IsSingle := by
  obtain ⟨entries, rfl, hflat⟩ := h
  unfold Settings.section?
  dsimp only
  split
  · rename_i own hown
    exact ⟨own, rfl, hflat name own hown⟩
  · exact ⟨[], rfl, nofun⟩

theorem not_unreported_written (value : Value) : ¬ Unreported value.written := by
  rintro ⟨e, he, hnone⟩
  obtain rfl := Value.written_error he
  cases hnone

theorem not_unreported_catalogTemplate (id : String) : ¬ Unreported (catalogTemplate id) := by
  unfold catalogTemplate
  split
  · exact not_unreported_ok _
  · exact not_unreported_error rfl

theorem mem_of_catalogTemplate {id : String} {t : Template} (h : catalogTemplate id = .ok t) :
    t ∈ catalog := by
  unfold catalogTemplate at h
  split at h
  · rename_i found hfound
    obtain rfl := Except.ok.inj h
    exact List.mem_of_find?_eq_some hfound
  · cases h

namespace BuildRequest

variable {r : BuildRequest}

theorem not_unreported_chosenTemplate (hs : FlatSettings settings) :
    ¬ Unreported (r.chosenTemplate settings) := by
  have hmissing : ¬ Unreported (throw .noTemplateGiven : Result Template) :=
    not_unreported_error rfl
  unfold chosenTemplate
  split
  · exact not_unreported_catalogTemplate _
  · obtain ⟨own, hown, -⟩ := hs.section_eq_ok "generator"
    rw [unreported_bind_ok hown]
    split
    · split
      · exact not_unreported_bind (not_unreported_written _)
          fun name _ => not_unreported_catalogTemplate name
      · exact hmissing
    · exact hmissing

theorem mem_of_chosenTemplate {t : Template} (h : r.chosenTemplate settings = .ok t) :
    t ∈ catalog := by
  unfold chosenTemplate at h
  split at h
  · exact mem_of_catalogTemplate h
  · obtain ⟨own, -, h⟩ := bind_eq_ok.mp h
    split at h
    · split at h
      · obtain ⟨name, -, h⟩ := bind_eq_ok.mp h
        exact mem_of_catalogTemplate h
      · cases h
    · cases h

theorem attempt_result {α : Type} (prepare : Result α)
    (build : Template → α → Params → Result Product) :
    (r.attempt settings prepare build).result = (do
      let t ← r.chosenTemplate settings
      let prepared ← prepare
      let overrides ← readOverrides r.overrides
      build t prepared overrides) := by
  unfold attempt
  cases r.chosenTemplate settings with
  | error e => rfl
  | ok t =>
    cases prepare with
    | error e => rfl
    | ok prepared =>
      cases readOverrides r.overrides with
      | error e => rfl
      | ok overrides => rfl

/-- A build that fails without a report, for a number of bars if there is one: an override is
garbled, the bars are out of range, or a parameter overflows. -/
def Slips (r : BuildRequest) (settings : Value) (bars : Option Int) : Prop :=
  ∃ t, r.chosenTemplate settings = .ok t ∧ (GarbledIn r.overrides ∨
    ∃ overrides, readOverrides r.overrides = .ok overrides ∧
      ((∃ n ∈ bars, BeyondRange n.natAbs) ∨ t.Overflows overrides))

/-- A build slips by its overrides, or by what it makes of them. -/
theorem unreported_attempt {α : Type} {prepare : Result α} {prepared : α}
    {build : Template → α → Params → Result Product} {bars : Option Int}
    (hs : FlatSettings settings) (hprepare : prepare = .ok prepared)
    (hbuild : ∀ t ∈ catalog, ∀ overrides, Unreported (build t prepared overrides) ↔
      (∃ n ∈ bars, BeyondRange n.natAbs) ∨ t.Overflows overrides) :
    Unreported (r.attempt settings prepare build).result ↔ r.Slips settings bars := by
  rw [attempt_result, unreported_bind, or_iff_right (not_unreported_chosenTemplate hs), Slips]
  refine exists_congr fun t => and_congr_right fun ht => ?_
  rw [unreported_bind_ok hprepare, unreported_bind, unreported_readOverrides]
  refine or_congr_right (exists_congr fun overrides => and_congr_right fun _ => ?_)
  exact hbuild t (mem_of_chosenTemplate ht) overrides

end BuildRequest

theorem GenerateRequest.unreported_attempt {r : GenerateRequest} (hs : FlatSettings settings)
    (around : Surroundings) :
    Unreported (r.attempt settings around).result ↔ r.build.Slips settings r.bars := by
  refine BuildRequest.unreported_attempt hs rfl fun t ht overrides => ?_
  have hpiece : ∀ bars, Unreported (do
      let piece ← t.piece (r.build.seed.getD around.freshSeed) r.build.bpm bars overrides
      return Product.piece piece) ↔ t.Overflows overrides := fun bars =>
    (unreported_followed fun _ _ => not_unreported_ok _).trans (Template.unreported_piece ht _ _ _ _)
  cases hbars : r.bars with
  | none =>
    have hgiven : ¬ ∃ n ∈ (none : Option Int), BeyondRange n.natAbs := by simp
    have hcounts : (none : Option Int).mapM Binary64.ofInt = (.ok none : Result _) := rfl
    rw [unreported_bind_ok hcounts, or_iff_right hgiven]
    exact hpiece none
  | some n =>
    have hcount : (∃ m ∈ some n, BeyondRange m.natAbs) ↔ BeyondRange n.natAbs := by simp
    rw [hcount]
    by_cases hbeyond : BeyondRange n.natAbs
    · have hfails : (some n).mapM Binary64.ofInt = .error .beyondRange := by
        rw [Option.mapM_some, Binary64.ofInt_eq_error hbeyond]
        rfl
      rw [hfails]
      exact iff_of_true ⟨_, rfl, rfl⟩ (.inl hbeyond)
    · obtain ⟨x, hx, _⟩ := Binary64.ofInt_eq_ok (not_le.mp hbeyond)
      have hcounts : (some n).mapM Binary64.ofInt = .ok (some x) := by
        rw [Option.mapM_some, hx]
        rfl
      rw [unreported_bind_ok hcounts, or_iff_right hbeyond]
      exact hpiece (some x)

theorem not_unreported_chosenText {own : Section} {name : String}
    (h : ∀ value, own.get? name = some value → value.IsSingle) (given : Option String)
    (default : String) : ¬ Unreported (chosenText given own name default) := by
  unfold chosenText
  split
  · exact not_unreported_ok _
  · split
    · exact not_unreported_ok _
    · rename_i hget
      exact absurd (h _ hget) id
    · rename_i hget
      exact absurd (h _ hget) id
    · exact not_unreported_written _

theorem ArrangeRequest.unreported_attempt {r : ArrangeRequest} (hs : FlatSettings settings)
    (around : Surroundings) :
    Unreported (r.attempt settings around).result ↔ r.build.Slips settings none := by
  obtain ⟨own, hown, hsingle⟩ := hs.section_eq_ok "arranger"
  refine BuildRequest.unreported_attempt hs hown fun t ht overrides => ?_
  rw [or_iff_right (by simp), ← Template.unreported_resolve ht]
  refine unreported_followed fun params hparams => ?_
  have hresolved := (Template.drawable_of_mem_catalog ht).resolved hparams
  refine not_unreported_bind (not_unreported_chosenText (hsingle "style") r.style "arc")
    fun style _ => ?_
  refine not_unreported_bind ?_ fun _ _ => ?_
  · exact not_unreported_bind (not_unreported_blueprint style) fun _ _ => not_unreported_ok _
  refine not_unreported_bind (not_unreported_chosenText (hsingle "length") r.length "medium")
    fun length _ => ?_
  exact not_unreported_bind (Template.not_unreported_arrange ht hresolved _ _ style length _)
    fun _ _ => not_unreported_ok _

end Requests

end PatternLoom
