import Mathlib
import PatternLoom.Proofs.Catalog.Audible

/-! Variants of a part. Where the variants of one part play together the seed keeps one of them, the
same in all of these phases, and mutes the others. -/

namespace PatternLoom

open Binary64 (Between)

theorem Table.get?_append {α : Type} (t u : Table α) (key : String) :
    Table.get? (t ++ u) key = (t.get? key <|> u.get? key) := by
  induction t with
  | nil => rfl
  | cons entry rest ih =>
    obtain ⟨k, v⟩ := entry
    rw [List.cons_append, get?_cons, get?_cons]
    split
    · rfl
    · exact ih

theorem Stream.mem_of_pickOne {s t : Stream} {options : List String} {option : String}
    (hne : options ≠ []) (h : s.pickOne options = .ok (option, t)) : option ∈ options := by
  rw [pickOne, List.isEmpty_eq_false_iff.mpr hne, if_neg Bool.false_ne_true] at h
  obtain ⟨_, _, h⟩ := bind_eq_ok.mp h
  obtain ⟨i, _, h⟩ := bind_eq_ok.mp h
  split at h
  · rename_i found hfound
    obtain ⟨rfl, -⟩ := Prod.mk.inj (pure_eq_ok.mp h)
    exact mem_of_nth hfound
  · cases h

/-- In every phase in which all of the options play, those that are kept are heard and the others are
muted. -/
def RuleSet.PlaysOnly (rules : RuleSet) (a : Adjustments) (options keep : List String) : Prop :=
  ∀ phase ∈ rules.phases, (∀ id ∈ options, id ∈ phase.layers) → ∀ id ∈ options,
    ∃ layer g, rules.layer? id = some layer ∧
      (resolveLevels layer phase.id phase.levels a).gain = some g ∧
      if id ∈ keep then 0 < g else g = 0

/-- A table that mutes those of the options that are not kept, and sets nothing for the others. -/
def Table.Chooses (t : Table Levels) (options keep : List String) : Prop :=
  ∀ id ∈ options, t.get? id = if id ∈ keep then none else some Catalog.muted

/-- A table that sets nothing for any of the options. -/
def Table.PassesOver {α : Type} (t : Table α) (options : List String) : Prop :=
  ∀ id ∈ options, t.get? id = none

section Choosing

variable {t u : Table Levels} {options keep : List String}

theorem Table.Chooses.append (h : t.Chooses options keep) (hu : u.PassesOver options) :
    Table.Chooses (t ++ u) options keep := by
  intro id hid
  rw [get?_append, h id hid, hu id hid]
  split <;> rfl

theorem Table.PassesOver.append {α : Type} {t u : Table α} (h : t.PassesOver options)
    (hu : u.PassesOver options) : Table.PassesOver (t ++ u) options := by
  intro id hid
  rw [get?_append, h id hid, hu id hid]
  rfl

theorem Table.PassesOver.append_chooses (h : t.PassesOver options) (hu : u.Chooses options keep) :
    Table.Chooses (t ++ u) options keep := by
  intro id hid
  rw [get?_append, h id hid, hu id hid]
  rfl

theorem Table.passesOver_of_keys {α : Type} {t : Table α} (h : ∀ e ∈ t, e.1 ∉ options) :
    t.PassesOver options := by
  intro id hid
  cases hget : t.get? id with
  | none => rfl
  | some value => exact absurd hid (h _ (mem_of_get? hget))

end Choosing

namespace Catalog

section Muting

variable {options keep : List String} {id layer : String}

theorem get?_muteUnselected :
    (muteUnselected options keep).get? id =
      if id ∈ options ∧ id ∉ keep then some muted else none := by
  have hfold : ∀ (ids : List String) (t : Table Levels),
      Table.get? (ids.foldl (fun t option => t.put option muted) t) id =
        if id ∈ ids then some muted else t.get? id := by
    intro ids
    induction ids with
    | nil => simp
    | cons first ids ih =>
      intro t
      rw [List.foldl_cons, ih, Table.get?_put]
      by_cases hfirst : first = id <;> by_cases hids : id ∈ ids <;>
        simp [hfirst, hids, eq_comm (a := id)]
  rw [muteUnselected, hfold]
  simp [Table.get?_nil]

theorem muteUnselected_chooses (options keep : List String) :
    (muteUnselected options keep).Chooses options keep := by
  intro id hid
  rw [get?_muteUnselected]
  by_cases hkeep : id ∈ keep <;> simp [hid, hkeep]

theorem muteUnselected_passesOver (options keep others : List String)
    (h : ∀ id ∈ others, id ∉ options) : (muteUnselected options keep).PassesOver others := by
  intro id hid
  rw [get?_muteUnselected, if_neg fun hc => h id hid hc.1]

theorem unless_passesOver {kept : Prop} [Decidable kept] (h : layer ∉ options) :
    Table.PassesOver (if kept then [] else [(layer, muted)] : Table Levels) options := by
  refine Table.passesOver_of_keys ?_
  split
  · simp
  · simpa using h

end Muting

section Heard

variable {params : Params} {seed : String} {a : Adjustments} {t : Template} {layer : Layer}

theorem Faint.pos {id name : String} {scope : Option String} {x : Binary64}
    (h : Faint params id scope name x) : 0 < Decimal.roundTo 3 x := by
  cases h with
  | sparkle hair hmotion =>
    have hair := clamped_between hair (by decide +kernel)
    have hmotion := clamped_between hmotion (by decide +kernel)
    exact (steady_of_between (between_plane hair hmotion (by decide +kernel)) (by decide +kernel)).2.1
  | bass hmotion =>
    have hmotion := clamped_between hmotion (by decide +kernel)
    exact (steady_of_between (between_line hmotion (by decide +kernel)) (by decide +kernel)).2.1
  | texture hgrit =>
    have hgrit := clamped_between hgrit (by decide +kernel)
    exact (steady_of_between (between_line hgrit (by decide +kernel)) (by decide +kernel)).2.1
  | textureAlt hgrit =>
    have hgrit := clamped_between hgrit (by decide +kernel)
    exact (steady_of_between (between_line hgrit (by decide +kernel)) (by decide +kernel)).2.1

/-- A layer has a gain above zero wherever it is not muted. -/
theorem exists_gain_pos (ht : t ∈ catalog) (h : t.adjust params seed = .ok a)
    (hlayer : layer ∈ t.rules.layers) {phase : String} (hmutes : ¬ a.Mutes phase layer.id) :
    ∃ g, (resolveLevels layer phase [] a).gain = some g ∧ 0 < g := by
  obtain ⟨g, hg, hresolves⟩ := exists_resolves ht h hlayer phase
  refine ⟨g, hg, ?_⟩
  cases hresolves with
  | loud within => exact within.lt_of_lt Binary64.isFinite_zero (by decide +kernel)
  | mute mutes => exact absurd mutes hmutes
  | faint spot => exact spot.elim Faint.pos Faint.pos

/-- It is enough to look at what is set in the phases in which the options play together. -/
theorem playsOnly_of_chooses (ht : t ∈ catalog) (h : t.adjust params seed = .ok a)
    {options keep : List String} (names : List String)
    (hoptions : ∀ id ∈ options, (t.rules.layer? id).isSome)
    (hnames : ∀ phase ∈ t.rules.phases, (∀ id ∈ options, id ∈ phase.layers) → phase.id ∈ names)
    (hs : ∀ name ∈ names, ∃ u, a.phaseLevels.get? name = some u ∧ u.Chooses options keep) :
    t.rules.PlaysOnly a options keep := by
  intro phase hphase hplay id hid
  obtain ⟨layer, hlayer⟩ := Option.isSome_iff_exists.mp (hoptions id hid)
  obtain rfl : layer.id = id := by simpa using List.find?_some hlayer
  have hlevels := List.isEmpty_iff.mp (phases_levels_isEmpty t ht phase hphase)
  obtain ⟨u, hu, hchooses⟩ := hs phase.id (hnames phase hphase hplay)
  have hin : a.levelsIn phase.id layer.id = if layer.id ∈ keep then none else some muted := by
    rw [Adjustments.levelsIn, hu]
    exact hchooses layer.id hid
  rw [hlevels]
  by_cases hkeep : layer.id ∈ keep
  · have hmutes : ¬ a.Mutes phase.id layer.id := by
      rw [Adjustments.Mutes, hin, if_pos hkeep]
      exact Option.some_ne_none _ ∘ Eq.symm
    obtain ⟨g, hg, hpos⟩ := exists_gain_pos ht h (List.mem_of_find?_eq_some hlayer) hmutes
    exact ⟨layer, g, hlayer, hg, by rwa [if_pos hkeep]⟩
  · refine ⟨layer, 0, hlayer, ?_, by rw [if_neg hkeep]⟩
    rw [resolveLevels_gain, hin, if_neg hkeep]
    rfl

end Heard

section Templates

variable {params : Params} {seed : String} {a : Adjustments}

theorem Techno.playsOnly (h : Techno.adjust params seed = .ok a) :
    (∃ stab ∈ stabOptions, Techno.rules.PlaysOnly a stabOptions [stab]) ∧
      ∃ perc ∈ percOptions, Techno.rules.PlaysOnly a percOptions [perc] := by
  have ht : Techno.template ∈ catalog := by simp [catalog]
  have hadjust := h
  simp only [Techno.adjust, bind_eq_ok, pure_eq_ok] at h
  obtain ⟨drive, _, bright, _, ⟨stab, s⟩, hstab, ⟨perc, s'⟩, hperc, rfl⟩ := h
  have hrumble : ∀ options, "rumble" ∉ options → Table.PassesOver
      (if s'.next.1 < rumbleChance then [] else [("rumble", muted)] : Table Levels) options :=
    fun _ => unless_passesOver
  have hkick : ∀ options, "kick" ∉ options →
      Table.PassesOver [("kick", gain (0.9 + drive * 0.08))] options :=
    fun _ hnot => Table.passesOver_of_keys (by simpa using hnot)
  refine ⟨⟨stab, Stream.mem_of_pickOne (by decide) hstab, ?_⟩,
    perc, Stream.mem_of_pickOne (by decide) hperc, ?_⟩
  · have hstabs := muteUnselected_chooses stabOptions [stab]
    have hpercs := muteUnselected_passesOver percOptions [perc] stabOptions (by decide)
    have hhook := hstabs.append (hrumble _ (by decide))
    have hfull := (hstabs.append hpercs).append (hrumble _ (by decide))
    have hdrop := hfull.append (hkick _ (by decide))
    refine playsOnly_of_chooses ht hadjust ["05-stab-hook", "06-perc-accent", "07-tension-drop",
      "08-full-return", "09-cycle-variation", "10-outro-perc-out", "11-outro-clap-out"] (by decide)
      (by decide) ?_
    simp only [List.forall_mem_cons, List.not_mem_nil, IsEmpty.forall_iff, implies_true, and_true]
    exact ⟨⟨_, rfl, hhook⟩, ⟨_, rfl, hfull⟩, ⟨_, rfl, hdrop⟩, ⟨_, rfl, hfull⟩, ⟨_, rfl, hfull⟩,
      ⟨_, rfl, hhook⟩, ⟨_, rfl, hhook⟩⟩
  · have hstabs := muteUnselected_passesOver stabOptions [stab] percOptions (by decide)
    have hpercs := muteUnselected_chooses percOptions [perc]
    have hfull := (hstabs.append_chooses hpercs).append (hrumble _ (by decide))
    have hdrop := hfull.append (hkick _ (by decide))
    refine playsOnly_of_chooses ht hadjust ["06-perc-accent", "07-tension-drop", "08-full-return",
      "09-cycle-variation"] (by decide) (by decide) ?_
    simp only [List.forall_mem_cons, List.not_mem_nil, IsEmpty.forall_iff, implies_true, and_true]
    exact ⟨⟨_, rfl, hfull⟩, ⟨_, rfl, hdrop⟩, ⟨_, rfl, hfull⟩, ⟨_, rfl, hfull⟩⟩

open Rap80s (ghostOptions clapOptions hatFeatureOptions textureOptions)

/-- Both textures may be kept; of the other pairs one is. -/
theorem Rap80s.playsOnly (h : Rap80s.adjust params seed = .ok a) :
    (∃ ghost ∈ ghostOptions, Rap80s.rules.PlaysOnly a ghostOptions [ghost]) ∧
      (∃ clap ∈ clapOptions, Rap80s.rules.PlaysOnly a clapOptions [clap]) ∧
      (∃ hat ∈ hatFeatureOptions, Rap80s.rules.PlaysOnly a hatFeatureOptions [hat]) ∧
      ∃ kept, kept ≠ [] ∧ kept ⊆ textureOptions ∧
        Rap80s.rules.PlaysOnly a textureOptions kept := by
  have ht : Rap80s.template ∈ catalog := by simp [catalog]
  have hadjust := h
  simp only [Rap80s.adjust, bind_eq_ok, pure_eq_ok] at h
  obtain ⟨grit, _, swing, _, ⟨ghost, s⟩, hghost, ⟨clap, s'⟩, hclap, ⟨hat, t⟩, hhat, ⟨texture, t'⟩,
    htexture, rfl⟩ := h
  have hkept : ∃ kept, kept = (if t'.next.1 < dualTextureChance then textureOptions else [texture]) ∧
      kept ≠ [] ∧ kept ⊆ textureOptions := by
    refine ⟨_, rfl, ?_⟩
    split
    · exact ⟨by decide, List.Subset.refl _⟩
    · exact ⟨List.cons_ne_nil _ _, by simpa using Stream.mem_of_pickOne (by decide) htexture⟩
  obtain ⟨kept, hkept, hne, hsubset⟩ := hkept
  rw [← hkept] at hadjust ⊢
  have hadlib : ∀ options, "adlib-hat" ∉ options → Table.PassesOver
      (if t'.next.2.next.1 < adlibHatChance then [] else [("adlib-hat", muted)] : Table Levels)
        options := fun _ => unless_passesOver
  have hbass : ∀ options, "bass" ∉ options →
      Table.PassesOver [("bass", gain (0.1 + grit * 0.16))] options :=
    fun _ hnot => Table.passesOver_of_keys (by simpa using hnot)
  refine ⟨⟨ghost, Stream.mem_of_pickOne (by decide) hghost, ?_⟩,
    ⟨clap, Stream.mem_of_pickOne (by decide) hclap, ?_⟩,
    ⟨hat, Stream.mem_of_pickOne (by decide) hhat, ?_⟩, kept, hne, hsubset, ?_⟩
  · have hghosts := muteUnselected_chooses ghostOptions [ghost]
    have hclaps := muteUnselected_passesOver clapOptions [clap] ghostOptions (by decide)
    have hhats := muteUnselected_passesOver hatFeatureOptions [hat] ghostOptions (by decide)
    have htextures := muteUnselected_passesOver textureOptions kept ghostOptions (by decide)
    have hclapping := (hghosts.append hclaps).append (hadlib _ (by decide))
    have htextured := (((hghosts.append hhats).append htextures).append
      (hadlib _ (by decide))).append (hbass _ (by decide))
    refine playsOnly_of_chooses ht hadjust ["05-ghost-clap", "06-texture-in"] (by decide) (by decide)
      ?_
    simp only [List.forall_mem_cons, List.not_mem_nil, IsEmpty.forall_iff, implies_true, and_true]
    exact ⟨⟨_, rfl, hclapping⟩, ⟨_, rfl, htextured⟩⟩
  · have hghosts := muteUnselected_passesOver ghostOptions [ghost] clapOptions (by decide)
    have hclaps := muteUnselected_chooses clapOptions [clap]
    have hclapping := (hghosts.append_chooses hclaps).append (hadlib _ (by decide))
    refine playsOnly_of_chooses ht hadjust ["05-ghost-clap"] (by decide) (by decide) ?_
    simp only [List.forall_mem_cons, List.not_mem_nil, IsEmpty.forall_iff, implies_true, and_true]
    exact ⟨_, rfl, hclapping⟩
  · have hghosts := muteUnselected_passesOver ghostOptions [ghost] hatFeatureOptions (by decide)
    have hhats := muteUnselected_chooses hatFeatureOptions [hat]
    have htextures := muteUnselected_passesOver textureOptions kept hatFeatureOptions (by decide)
    have htextured := (((hghosts.append_chooses hhats).append htextures).append
      (hadlib _ (by decide))).append (hbass _ (by decide))
    refine playsOnly_of_chooses ht hadjust ["06-texture-in"] (by decide) (by decide) ?_
    simp only [List.forall_mem_cons, List.not_mem_nil, IsEmpty.forall_iff, implies_true, and_true]
    exact ⟨_, rfl, htextured⟩
  · have hghosts := muteUnselected_passesOver ghostOptions [ghost] textureOptions (by decide)
    have hhats := muteUnselected_passesOver hatFeatureOptions [hat] textureOptions (by decide)
    have htextures := muteUnselected_chooses textureOptions kept
    have htextured := (((hghosts.append hhats).append_chooses htextures).append
      (hadlib _ (by decide))).append (hbass _ (by decide))
    refine playsOnly_of_chooses ht hadjust ["06-texture-in"] (by decide) (by decide) ?_
    simp only [List.forall_mem_cons, List.not_mem_nil, IsEmpty.forall_iff, implies_true, and_true]
    exact ⟨_, rfl, htextured⟩

end Templates

end Catalog

open Catalog.Techno (stabOptions percOptions)
open Catalog.Rap80s (ghostOptions clapOptions hatFeatureOptions textureOptions)

/-- Of each pair of variants the adjustments of a seed keep one, the same in all phases in which the
pair plays, and mute the other. Of the textures of the rap they keep one or both. -/
theorem catalog_keepsVariants (params : Params) (seed : String) :
    (∀ a, Catalog.Techno.template.adjust params seed = .ok a →
      (∃ stab ∈ stabOptions, Catalog.Techno.template.rules.PlaysOnly a stabOptions [stab]) ∧
        ∃ perc ∈ percOptions, Catalog.Techno.template.rules.PlaysOnly a percOptions [perc]) ∧
    ∀ a, Catalog.Rap80s.template.adjust params seed = .ok a →
      (∃ ghost ∈ ghostOptions, Catalog.Rap80s.template.rules.PlaysOnly a ghostOptions [ghost]) ∧
        (∃ clap ∈ clapOptions, Catalog.Rap80s.template.rules.PlaysOnly a clapOptions [clap]) ∧
        (∃ hat ∈ hatFeatureOptions,
          Catalog.Rap80s.template.rules.PlaysOnly a hatFeatureOptions [hat]) ∧
        ∃ kept, kept ≠ [] ∧ kept ⊆ textureOptions ∧
          Catalog.Rap80s.template.rules.PlaysOnly a textureOptions kept :=
  ⟨fun _ => Catalog.Techno.playsOnly, fun _ => Catalog.Rap80s.playsOnly⟩

/-- Parameters of the wrong kinds for a seed. -/
theorem looseParams_keepsVariants :
    (∃ a, Catalog.Techno.template.adjust [("drive", .text "loud"), ("rotate", .null)] "abc123" =
        .ok a ∧
      (∃ stab ∈ stabOptions, Catalog.Techno.template.rules.PlaysOnly a stabOptions [stab]) ∧
      ∃ perc ∈ percOptions, Catalog.Techno.template.rules.PlaysOnly a percOptions [perc]) ∧
    ∃ a, Catalog.Rap80s.template.adjust [("grit", .text "rough")] "abc123" = .ok a ∧
      (∃ ghost ∈ ghostOptions, Catalog.Rap80s.template.rules.PlaysOnly a ghostOptions [ghost]) ∧
        (∃ clap ∈ clapOptions, Catalog.Rap80s.template.rules.PlaysOnly a clapOptions [clap]) ∧
        (∃ hat ∈ hatFeatureOptions,
          Catalog.Rap80s.template.rules.PlaysOnly a hatFeatureOptions [hat]) ∧
        ∃ kept, kept ≠ [] ∧ kept ⊆ textureOptions ∧
          Catalog.Rap80s.template.rules.PlaysOnly a textureOptions kept := by
  obtain ⟨a, ha⟩ := eq_ok_of_isOk (x := Catalog.Techno.template.adjust
    [("drive", .text "loud"), ("rotate", .null)] "abc123") (by decide +kernel)
  obtain ⟨b, hb⟩ := eq_ok_of_isOk (x := Catalog.Rap80s.template.adjust
    [("grit", .text "rough")] "abc123") (by decide +kernel)
  exact ⟨⟨a, ha, (catalog_keepsVariants _ _).1 a ha⟩, b, hb, (catalog_keepsVariants _ _).2 b hb⟩

end PatternLoom
