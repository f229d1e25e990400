import Mathlib
import PatternLoom.Proofs.Binary64.Remainder
import PatternLoom.Proofs.Program.DrawOrder
import PatternLoom.Proofs.Stream.Choice

/-! Options of weight zero. The weights are taken from a share of their sum until nothing is left,
and an option without weight takes nothing. So it is only chosen in two places: in the first one, by
a roll of zero, and in the last one, by a roll that all the weights together do not use up. -/

namespace PatternLoom

section Settling

variable {α : Type} {x : Binary64} {before after options : List (α × Binary64)}
  {option : α × Binary64}

def weightsOf (options : List (α × Binary64)) : List Binary64 := options.map (·.2)

theorem weightsOf_append (options more : List (α × Binary64)) :
    weightsOf (options ++ more) = weightsOf options ++ weightsOf more := List.map_append

/-- The option between others that settles a roll: nothing is left of the roll with it and something
is left before it, or else it is the last one. -/
structure Settles (x : Binary64) (before : List (α × Binary64)) (option : α × Binary64)
    (after : List (α × Binary64)) : Prop where
  unsettled : ∀ front back, before = front ++ back → front ≠ [] →
    ¬ x.remainder (weightsOf front) ≤ 0
  settled : x.remainder (weightsOf (before ++ [option])) ≤ 0 ∨ after = []

theorem Settles.cons {first : α × Binary64} (hleft : ¬ x - first.2 ≤ 0)
    (h : Settles (x - first.2) before option after) : Settles x (first :: before) option after where
  unsettled front back hsplit hne := by
    cases front with
    | nil => exact absurd rfl hne
    | cons head front =>
      obtain ⟨rfl, hrest⟩ := List.cons.inj hsplit
      by_cases hempty : front = []
      · rw [hempty]
        exact hleft
      · exact h.unsettled front back hrest hempty
  settled := h.settled

theorem settle_settles (hne : options ≠ []) (x : Binary64) : ∃ before option after,
    options = before ++ option :: after ∧ settle x options = some option.1 ∧
      Settles x before option after := by
  induction options generalizing x with
  | nil => exact absurd rfl hne
  | cons first rest ih =>
    have hfirst : ∀ after, x - first.2 ≤ 0 ∨ after = [] → Settles x [] first after := by
      refine fun after h => ⟨fun front back hsplit hne => ?_, h⟩
      exact absurd (List.append_eq_nil_iff.mp hsplit.symm).1 hne
    cases rest with
    | nil => exact ⟨[], first, [], rfl, rfl, hfirst [] (.inr rfl)⟩
    | cons second rest =>
      by_cases hleft : x - first.2 ≤ 0
      · exact ⟨[], first, second :: rest, rfl, if_pos hleft, hfirst _ (.inl hleft)⟩
      · obtain ⟨before, option, after, hsplit, hsettle, hsettles⟩ :=
          ih (List.cons_ne_nil _ _) (x - first.2)
        refine ⟨first :: before, option, after, ?_, (if_neg hleft).trans hsettle,
          hsettles.cons hleft⟩
        rw [hsplit, List.cons_append]

variable (hweights : ∀ w ∈ weightsOf (before ++ option :: after), w.IsWeight)
  (h : Settles x before option after)

include hweights h

theorem Settles.first (hx : x ≤ 0) : before = [] := by
  cases before with
  | nil => rfl
  | cons head before =>
    have hhead : head.2.IsWeight := hweights _ (by simp [weightsOf])
    exact absurd (Binary64.sub_nonpos hx hhead)
      (h.unsettled [head] before rfl (List.cons_ne_nil _ _))

theorem Settles.last (hx : ¬ x.remainder (weightsOf (before ++ option :: after)) ≤ 0) :
    after = [] := by
  refine h.settled.resolve_left fun hsettled => hx ?_
  have hsplit : before ++ option :: after = (before ++ [option]) ++ after := by simp
  rw [hsplit, weightsOf_append] at hweights ⊢
  rw [Binary64.remainder_append]
  exact Binary64.remainder_nonpos hsettled fun w hw => hweights w (List.mem_append_right _ hw)

/-- An option without weight leaves what there was before it. -/
theorem Settles.of_weightless (hzero : ¬ 0 < option.2) : x ≤ 0 ∧ before = [] ∨
    ¬ x.remainder (weightsOf (before ++ option :: after)) ≤ 0 ∧ after = [] := by
  by_cases hsettled : x.remainder (weightsOf (before ++ [option])) ≤ 0
  · left
    have hoption : option.2.IsWeight := hweights _ (by simp [weightsOf])
    rw [weightsOf_append, Binary64.remainder_append] at hsettled
    have hbefore := Binary64.nonpos_of_sub_nonpos hoption hzero hsettled
    have hempty : before = [] := by
      by_contra hne
      exact h.unsettled before [] (List.append_nil _).symm hne hbefore
    rw [hempty] at hbefore
    exact ⟨hbefore, hempty⟩
  · right
    obtain rfl := h.settled.resolve_left hsettled
    exact ⟨hsettled, rfl⟩

end Settling

section Choosing

variable {α : Type} {options : List (α × Binary64)} {draw : Binary64}

/-- The share of the sum of the weights that a draw stands for. -/
def rollOf (options : List (α × Binary64)) (draw : Binary64) : Binary64 :=
  draw * .sum (weightsOf options)

/-- What all weights together leave of the roll. -/
def residueOf (options : List (α × Binary64)) (draw : Binary64) : Binary64 :=
  (rollOf options draw).remainder (weightsOf options)

/-- An option that a draw selects. It has a positive weight, up to two cases: a roll of zero selects
the first option and a roll with a residue the last one, whatever weights they have. There is no
residue if the weights have a finite sum and are not too many for the errors of their differences to
reach what the draw lacks of one. -/
structure Selects (options : List (α × Binary64)) (draw : Binary64) (option : α × Binary64) :
    Prop where
  mem : option ∈ options
  first : rollOf options draw ≤ 0 → options.head? = some option
  last : ¬ residueOf options draw ≤ 0 → options.getLast? = some option
  weight : 0 < option.2 ∨ rollOf options draw ≤ 0 ∨ ¬ residueOf options draw ≤ 0
  used_up : draw.Unsigned ∧ draw.isFinite → draw.value ≤ 1 - 1 / 2 ^ 32 →
    options.length ≤ 2 ^ 19 → (Binary64.sum (weightsOf options)).isFinite →
    residueOf options draw ≤ 0

theorem chooseWeighted_eq_some (hne : options ≠ []) (hweights : ∀ o ∈ options, o.2.IsWeight)
    (draw : Binary64) :
    ∃ option, chooseWeighted options draw = some option.1 ∧ Selects options draw option := by
  obtain ⟨before, option, after, hsplit, hsettle, hsettles⟩ :=
    settle_settles hne (rollOf options draw)
  have hall : ∀ w ∈ weightsOf options, w.IsWeight := List.forall_mem_map.mpr hweights
  refine ⟨option, hsettle, ?_, fun hroll => ?_, fun hresidue => ?_, ?_, ?_⟩
  · simp [hsplit]
  · have hempty : before = [] := hsettles.first (by rwa [← hsplit]) hroll
    rw [hsplit, hempty]
    rfl
  · have hempty : after = [] := hsettles.last (by rwa [← hsplit]) (by rwa [← hsplit])
    rw [hsplit, hempty, List.getLast?_concat]
  · by_cases hpos : 0 < option.2
    · exact .inl hpos
    · have hcases := hsettles.of_weightless (by rwa [← hsplit]) hpos
      rw [← hsplit] at hcases
      exact .inr (hcases.imp And.left And.left)
  · intro hdraw hlacks hcount hfinite
    exact Binary64.remainder_share hdraw hlacks hall (by simpa [weightsOf] using hcount) hfinite

end Choosing

section Homes

/-- The patterns of a layer with their weights. -/
def Layer.choices (layer : Layer) : List (String × Binary64) :=
  layer.patterns.map fun option => (option.value, option.weight)

theorem Layer.isWeight_of_mem {layer : Layer}
    (h : ∀ option ∈ layer.patterns, option.weight.isFinite) :
    ∀ choice ∈ layer.choices, choice.2.IsWeight := by
  intro choice hchoice
  obtain ⟨option, hoption, rfl⟩ := List.mem_map.mp hchoice
  exact ⟨h option hoption, option.weight_not_negative⟩

/-- Options of weight zero are only chosen by a roll of zero, in the first place, or by a roll with
a residue, in the last one. A pattern that a layer has at home is chosen likewise, where a residue
takes an infinite sum or very many patterns. -/
theorem chooseWeighted_selects :
    (∀ (α : Type) (options : List (α × Binary64)) (draw : Binary64), options ≠ [] →
      (∀ option ∈ options, option.2.IsWeight) → ∃ option,
        chooseWeighted options draw = some option.1 ∧ Selects options draw option) ∧
    ∀ (rules : RuleSet) (before after : List Layer) (layer : Layer) (seed : String),
      rules.layers = before ++ layer :: after → layer.patterns ≠ [] →
      (∀ option ∈ layer.patterns, option.weight.isFinite) → ∃ choice,
        (homePatterns (.ofSeed seed) rules.layers).get? layer.id =
          some (if choice.1.isEmpty then rest else choice.1) ∧
        Selects layer.choices ((Stream.ofSeed seed).drawAt (before.countP Layer.spends)) choice ∧
        (layer.patterns.length ≤ 2 ^ 19 → (Binary64.sum (weightsOf layer.choices)).isFinite →
          0 < choice.2 ∨
            rollOf layer.choices
              ((Stream.ofSeed seed).drawAt (before.countP Layer.spends)) ≤ 0) := by
  refine ⟨fun α options draw hne hweights => chooseWeighted_eq_some hne hweights draw, ?_⟩
  intro rules before after layer seed hsplit hne hfinite
  have hchoices : layer.choices ≠ [] := List.map_eq_nil_iff.not.mpr hne
  obtain ⟨choice, hchosen, hselects⟩ := chooseWeighted_eq_some hchoices
    (Layer.isWeight_of_mem hfinite) ((Stream.ofSeed seed).drawAt (before.countP Layer.spends))
  refine ⟨choice, ?_, hselects, fun hcount hsum => ?_⟩
  · rw [rules.get?_home hsplit, drawnPattern]
    have hdrawn : chooseWeighted (layer.patterns.map fun option => (option.value, option.weight))
        ((Stream.ofSeed seed).drawAt (before.countP Layer.spends)) = some choice.1 := hchosen
    rw [hdrawn]
  · obtain ⟨hdraw, hlacks⟩ :=
      ((Stream.ofSeed seed).after (before.countP Layer.spends)).next_bounds
    have hresidue := hselects.used_up hdraw hlacks (by rwa [Layer.choices, List.length_map]) hsum
    rcases hselects.weight with hpos | hroll | hleft
    · exact .inl hpos
    · exact .inr hroll
    · exact absurd hresidue hleft

/-- A weightless option in front of another one. -/
def lateStart : List (String × Binary64) := [("a", 0), ("b", 1)]

/-- The layer that has these options for patterns. -/
def lateLead : Layer where
  id := "lead"
  kind := .melodic
  patterns := [⟨"a", 0, by decide +kernel⟩, ⟨"b", 1, one_not_negative⟩]

def lateRules : RuleSet where
  layers := [lateLead]
  phases := [{ id := "main", layers := ["lead"], bars := some (1, 4) }]
  ids_nodup := by decide

theorem lateStart_selects :
    (∀ option ∈ lateStart, option.2.IsWeight) ∧ (∃ option : String × Binary64,
      chooseWeighted lateStart 0.5 = some option.1 ∧ 0 < option.2) ∧
    ∃ choice : String × Binary64, (homePatterns (.ofSeed "seed") lateRules.layers).get? "lead" =
      some (if choice.1.isEmpty then rest else choice.1) ∧ 0 < choice.2 := by
  have hweights : ∀ option ∈ lateStart, option.2.IsWeight := by decide +kernel
  have hfinite : ∀ option ∈ lateLead.patterns, option.weight.isFinite := by decide +kernel
  obtain ⟨hchoose, hhome⟩ := chooseWeighted_selects
  obtain ⟨option, hchosen, hselects⟩ :=
    hchoose String lateStart 0.5 (List.cons_ne_nil _ _) hweights
  obtain ⟨choice, hplays, _, hchoice⟩ :=
    hhome lateRules [] [] lateLead "seed" rfl (List.cons_ne_nil _ _) hfinite
  refine ⟨hweights, ⟨option, hchosen, ?_⟩, choice, hplays, ?_⟩
  · have hroll : ¬ rollOf lateStart 0.5 ≤ 0 := by decide +kernel
    have hresidue : residueOf lateStart 0.5 ≤ 0 := by decide +kernel
    rcases hselects.weight with hpos | hzero | hleft
    · exact hpos
    · exact absurd hzero hroll
    · exact absurd hresidue hleft
  · have hroll : ¬ rollOf lateLead.choices ((Stream.ofSeed "seed").drawAt 0) ≤ 0 := by
      decide +kernel
    exact (hchoice (by decide) (by decide +kernel)).resolve_right hroll

/-- A draw of zero is brought to zero by a weight of zero. -/
theorem lateStart_weightless : (∀ option ∈ lateStart, option.2.IsWeight) ∧
    (∃ option ∈ lateStart, 0 < option.2) ∧ (0 : Binary64) ≤ 0 ∧ (0 : Binary64) < 1 ∧
    chooseWeighted lateStart 0 = some "a" := by
  decide +kernel

end Homes

end PatternLoom
