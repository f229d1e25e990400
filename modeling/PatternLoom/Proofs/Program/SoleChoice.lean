import Mathlib
import PatternLoom.Proofs.Program.Rotation

/-! Layers that leave nothing to choose. Whether the patterns of a layer rotate or one of them is
drawn, it plays the one that it has, but an empty pattern is a rest only where it is drawn. So the
program with the patterns drawn is the one with the patterns in turn, and a rest more for every
play of an empty pattern. -/

namespace PatternLoom

section Alike

/-- Results that fail in the same way, or else are related. -/
inductive Alike {α β : Type} (R : α → β → Prop) : Result α → Result β → Prop where
  | ok {a : α} {b : β} (related : R a b) : Alike R (.ok a) (.ok b)
  | error (e : Failure) : Alike R (.error e) (.error e)

variable {α β γ δ : Type} {R : α → β → Prop} {S : γ → δ → Prop}

theorem Alike.bind {x : Result α} {y : Result β} {f : α → Result γ} {g : β → Result δ}
    (h : Alike R x y) (hnext : ∀ a b, R a b → Alike S (f a) (g b)) :
    Alike S (x >>= f) (y >>= g) := by
  cases h with
  | ok related => exact hnext _ _ related
  | error e => exact .error e

/-- A step in front that the two have in common. -/
theorem Alike.after (x : Result α) {f : α → Result γ} {g : α → Result δ}
    (hnext : ∀ a, x = .ok a → Alike S (f a) (g a)) : Alike S (x >>= f) (x >>= g) := by
  cases x with
  | ok a => exact hnext a rfl
  | error e => exact .error e

end Alike

section Longer

/-- A text with so many more characters put in. -/
structure Longer (k : Nat) (a b : String) : Prop where
  sublist : a.toList.Sublist b.toList
  length : b.toList.length = a.toList.length + k

variable {j k : Nat} {a b c d : String}

theorem Longer.refl (a : String) : Longer 0 a a := ⟨List.Sublist.refl _, rfl⟩

theorem Longer.append (h : Longer j a b) (h' : Longer k c d) :
    Longer (j + k) (a ++ c) (b ++ d) := by
  constructor
  · rw [String.toList_append, String.toList_append]
    exact h.sublist.append h'.sublist
  · rw [String.toList_append, String.toList_append, List.length_append, List.length_append,
      h.length, h'.length]
    omega

theorem Longer.after (p : String) (h : Longer k a b) : Longer k (p ++ a) (p ++ b) := by
  simpa using (Longer.refl p).append h

theorem Longer.before (h : Longer k a b) (p : String) : Longer k (a ++ p) (b ++ p) :=
  h.append (Longer.refl p)

theorem Longer.eq_iff (h : Longer k a b) : a = b ↔ k = 0 := by
  constructor
  · rintro rfl
    have hlength := h.length
    omega
  · rintro rfl
    exact String.toList_inj.mp (h.sublist.eq_of_length h.length.symm)

/-- Texts that are longer one by one, by so many characters together. -/
inductive LongerEach : Nat → List String → List String → Prop where
  | nil : LongerEach 0 [] []
  | cons {j k : Nat} {a b : String} {as bs : List String} (head : Longer j a b)
    (tail : LongerEach k as bs) : LongerEach (j + k) (a :: as) (b :: bs)

variable {as bs : List String}

theorem LongerEach.isEmpty (h : LongerEach k as bs) : as.isEmpty = bs.isEmpty := by
  cases h <;> rfl

theorem LongerEach.map_append (p : String) (h : LongerEach k as bs) :
    LongerEach k (as.map (p ++ ·)) (bs.map (p ++ ·)) := by
  induction h with
  | nil => exact .nil
  | cons head _ ih => exact .cons (head.after p) ih

theorem LongerEach.intercalate (mark : String) (h : LongerEach k as bs) :
    Longer k (mark.intercalate as) (mark.intercalate bs) := by
  induction h with
  | nil => exact .refl _
  | cons head tail ih =>
    cases tail with
    | nil => simpa using head
    | cons head' tail =>
      rw [String.intercalate_cons_cons, String.intercalate_cons_cons]
      exact (head.before mark).append ih

theorem alike_mapM {α : Type} {f g : α → Result String} {more : α → Nat} {xs : List α}
    (h : ∀ x ∈ xs, Alike (Longer (more x)) (f x) (g x)) :
    Alike (LongerEach (xs.map more).sum) (xs.mapM f) (xs.mapM g) := by
  induction xs with
  | nil => exact .ok .nil
  | cons x xs ih =>
    obtain ⟨hx, hxs⟩ := List.forall_mem_cons.mp h
    rw [List.mapM_cons, List.mapM_cons, List.map_cons, List.sum_cons]
    exact hx.bind fun _ _ head => (ih hxs).bind fun _ _ tail => .ok (.cons head tail)

end Longer

section Layers

/-- The first pattern of a layer, and a rest if it has none. -/
def Layer.sole (layer : Layer) : String := (layer.patterns.head?.map PatternOption.value).getD rest

/-- What a layer plays that has drawn a pattern. -/
def sounded (pattern : String) : String := if pattern.isEmpty then rest else pattern

/-- The rests that a layer plays only if its pattern is drawn. -/
def Layer.silence (layer : Layer) : Nat := if layer.sole.isEmpty then 1 else 0

variable {rules : RuleSet} {layer : Layer}

theorem drawnPattern_sole (h : layer.patterns.length ≤ 1) (draw : Binary64) :
    drawnPattern draw layer.patterns = sounded layer.sole := by
  unfold Layer.sole
  match hpatterns : layer.patterns with
  | [] => rfl
  | [_] => rfl
  | _ :: _ :: _ =>
    rw [hpatterns] at h
    simp at h

theorem RuleSet.patternIn_drawn (hlayer : layer ∈ rules.layers) (h : layer.patterns.length ≤ 1)
    (seed : String) (index : Nat) :
    patternIn false (homePatterns (.ofSeed seed) rules.layers) layer index =
      sounded layer.sole := by
  obtain ⟨before, after, hsplit⟩ := List.append_of_mem hlayer
  have hhome : ∀ home : Table String, patternIn false home layer index =
      (home.get? layer.id).getD rest := by
    intro home
    unfold patternIn
    cases layer.patterns[index % layer.patterns.length]? <;> rfl
  rw [hhome, rules.get?_home hsplit, drawnPattern_sole h, Option.getD_some]

theorem RuleSet.patternIn_sole (hlayer : layer ∈ rules.layers) (h : layer.patterns.length ≤ 1)
    (seed : String) (index : Nat) :
    patternIn true (homePatterns (.ofSeed seed) rules.layers) layer index = layer.sole := by
  refine (patternIn_turn hlayer seed index).unique ?_
  unfold Layer.sole
  match hpatterns : layer.patterns with
  | [] => exact .none hpatterns
  | [option] => exact .pattern (by rw [hpatterns, List.length_singleton, Nat.mod_one]; rfl)
  | _ :: _ :: _ =>
    rw [hpatterns] at h
    simp at h

theorem Layer.source_sounded (layer : Layer) :
    Longer layer.silence (layer.source layer.sole) (layer.source (sounded layer.sole)) := by
  unfold Layer.silence sounded
  by_cases hempty : layer.sole.isEmpty
  · rw [if_pos hempty, if_pos hempty, String.isEmpty_iff.mp hempty]
    have hquoted : Longer 1 (literal "") (literal rest) := ⟨by decide, by decide⟩
    unfold Layer.source
    cases layer.instrument with
    | none => exact (hquoted.after _).before _
    | some instrument => exact (((hquoted.after _).before _).before _).before _
  · rw [if_neg hempty, if_neg hempty]
    exact .refl _

/-- Whatever a layer plays, its levels and swing fail alike and read alike. -/
theorem Layer.expression_alike {k : Nat} {p p' : String}
    (h : Longer k (layer.source p) (layer.source p')) (levels : Levels)
    (adjustments : Adjustments) :
    Alike (Longer k) (layer.expression p levels adjustments)
      (layer.expression p' levels adjustments) := by
  unfold Layer.expression
  refine .after _ fun gain _ => .after _ fun slow _ => .after _ fun fast _ => ?_
  have hswing : ∀ swing, Alike (Longer k) (.ok (layer.source p ++ gain ++ slow ++ fast ++ swing))
      (.ok (layer.source p' ++ gain ++ slow ++ fast ++ swing)) :=
    fun swing => .ok ((((h.before gain).before slow).before fast).before swing)
  split
  · split
    · exact .after _ fun swing _ => hswing swing
    · exact hswing ""
  · exact hswing ""

theorem Layer.silence_eq_zero (h : layer.patterns.length ≤ 1) :
    layer.silence = 0 ↔ ∀ option ∈ layer.patterns, option.value ≠ "" := by
  unfold Layer.silence Layer.sole
  match hpatterns : layer.patterns with
  | [] => simp [rest]
  | [option] => simp
  | _ :: _ :: _ =>
    rw [hpatterns] at h
    simp at h

end Layers

section Programs

variable {rules : RuleSet}

/-- How often a layer with an empty pattern plays in the segments. -/
def RuleSet.silentPlays (rules : RuleSet) (segments : List Segment) : Nat :=
  (segments.map fun segment => ((rules.members segment).map Layer.silence).sum).sum

theorem longer_segmentExpression {k : Nat} {members members' : List String} (span : Int)
    (h : LongerEach k members members') :
    Longer k (segmentExpression members span) (segmentExpression members' span) := by
  unfold segmentExpression
  rw [← h.isEmpty]
  cases h with
  | nil => exact .refl _
  | cons head tail =>
    have hstack := ((LongerEach.cons head tail).map_append "    ").intercalate ",\n"
    exact ((hstack.after _).before _).before _

/-- Blocks are not affected by where it is said whether patterns rotate. -/
theorem segmentBlocks_turned (home : Table String) (rotate turned : Bool) (given : Option Bool)
    (adjustments : Adjustments) (number : Nat) (segments : List Segment) :
    segmentBlocks { rules with rotate := turned } home rotate { adjustments with rotate := given }
      number segments = segmentBlocks rules home rotate adjustments number segments := by
  induction segments generalizing number with
  | nil => rfl
  | cons segment segments ih =>
    rw [segmentBlocks, segmentBlocks, ih]
    rfl

variable (hsole : ∀ layer ∈ rules.layers, layer.patterns.length ≤ 1)

include hsole

theorem silentPlays_eq_zero {segments : List Segment} : rules.silentPlays segments = 0 ↔
    ∀ segment ∈ segments, ∀ layer ∈ rules.members segment, ∀ option ∈ layer.patterns,
      option.value ≠ "" := by
  unfold RuleSet.silentPlays
  rw [List.sum_eq_zero_iff, List.forall_mem_map]
  refine forall₂_congr fun segment _ => ?_
  rw [List.sum_eq_zero_iff, List.forall_mem_map]
  refine forall₂_congr fun layer hlayer => ?_
  exact Layer.silence_eq_zero (hsole layer (layer_of_mem_members hlayer))

theorem segmentBlock_alike (seed : String) (adjustments : Adjustments) (number : Nat)
    (segment : Segment) : Alike (Longer ((rules.members segment).map Layer.silence).sum)
      (segmentBlock rules (homePatterns (.ofSeed seed) rules.layers) true adjustments number
        segment)
      (segmentBlock rules (homePatterns (.ofSeed seed) rules.layers) false adjustments number
        segment) := by
  unfold segmentBlock
  refine Alike.bind (@alike_mapM _ _ _ Layer.silence _ fun layer hlayer => ?_)
    fun members members' hmembers => .ok ((longer_segmentExpression _ hmembers).after _)
  have hmem := layer_of_mem_members hlayer
  rw [RuleSet.patternIn_sole hmem (hsole layer hmem),
    RuleSet.patternIn_drawn hmem (hsole layer hmem)]
  exact Layer.expression_alike layer.source_sounded _ _

theorem segmentBlocks_alike (seed : String) (adjustments : Adjustments) (number : Nat)
    (segments : List Segment) : Alike (LongerEach (rules.silentPlays segments))
      (segmentBlocks rules (homePatterns (.ofSeed seed) rules.layers) true adjustments number
        segments)
      (segmentBlocks rules (homePatterns (.ofSeed seed) rules.layers) false adjustments number
        segments) := by
  induction segments generalizing number with
  | nil => exact .ok .nil
  | cons segment segments ih =>
    exact (segmentBlock_alike hsole seed adjustments number segment).bind fun _ _ head =>
      (ih (number + 1)).bind fun _ _ tail => .ok (.cons head tail)

/-- The two programs of rules, with the patterns in turn and with the patterns drawn, however the
rules and the build say so. -/
theorem program_alike {rotate rotate' : Bool} {given given' : Option Bool}
    (hon : given.getD rotate = true) (hoff : given'.getD rotate' = false) (bpm bars : Binary64)
    (seed : String) (adjustments : Adjustments) :
    Alike (fun code code' => ∃ n segments, safeBars bars = .ok n ∧
        rules.segments n = .ok segments ∧ Longer (rules.silentPlays segments) code code')
      (RuleSet.program { rules with rotate } bpm bars seed { adjustments with rotate := given })
      (RuleSet.program { rules with rotate := rotate' } bpm bars seed
        { adjustments with rotate := given' }) := by
  by_cases htempo : (!bpm.isFinite || decide (bpm ≤ 0)) = true
  · simp only [RuleSet.program, htempo, if_true, throw_bind]
    exact .error _
  · simp only [RuleSet.program, htempo, if_false, Bool.false_eq_true, hon, hoff]
    refine .after _ fun n hn => .after (rules.segments n) fun segments hsegments => ?_
    rw [segmentBlocks_turned _ true rotate given, segmentBlocks_turned _ false rotate' given']
    refine (segmentBlocks_alike hsole seed adjustments 1 segments).bind fun blocks blocks' h => ?_
    exact .ok ⟨n, segments, hn, hsegments, (((h.intercalate _).after _).before _).after _⟩

/-- Where no layer has a choice, the program with the patterns in turn fails as the one with the
patterns drawn does. Else it is the same, without a rest for each play of an empty pattern; so the
two are one program just if no empty pattern is played. -/
theorem RuleSet.program_turned {rotate rotate' : Bool} {given given' : Option Bool}
    (hon : given.getD rotate = true) (hoff : given'.getD rotate' = false) (bpm bars : Binary64)
    (seed : String) (adjustments : Adjustments) :
    Alike (fun code code' => ∃ n segments, safeBars bars = .ok n ∧
        rules.segments n = .ok segments ∧ Longer (rules.silentPlays segments) code code')
      (RuleSet.program { rules with rotate } bpm bars seed { adjustments with rotate := given })
      (RuleSet.program { rules with rotate := rotate' } bpm bars seed
        { adjustments with rotate := given' }) ∧
    (RuleSet.program { rules with rotate } bpm bars seed { adjustments with rotate := given } =
        RuleSet.program { rules with rotate := rotate' } bpm bars seed
          { adjustments with rotate := given' } ↔
      ∀ code n segments, RuleSet.program { rules with rotate := rotate' } bpm bars seed
          { adjustments with rotate := given' } = .ok code →
        safeBars bars = .ok n → rules.segments n = .ok segments →
        ∀ segment ∈ segments, ∀ layer ∈ rules.members segment, ∀ option ∈ layer.patterns,
          option.value ≠ "") := by
  have halike := program_alike hsole hon hoff bpm bars seed adjustments
  refine ⟨halike, ?_⟩
  generalize RuleSet.program { rules with rotate } bpm bars seed
    { adjustments with rotate := given } = turned at halike ⊢
  generalize RuleSet.program { rules with rotate := rotate' } bpm bars seed
    { adjustments with rotate := given' } = drawn at halike ⊢
  cases halike with
  | error e => exact iff_of_true rfl nofun
  | @ok code code' related =>
    obtain ⟨n, segments, hn, hsegments, hlonger⟩ := related
    rw [Except.ok.injEq, hlonger.eq_iff, silentPlays_eq_zero hsole]
    constructor
    · rintro hplays _ m others - hm hothers
      obtain rfl := Except.ok.inj (hn.symm.trans hm)
      obtain rfl := Except.ok.inj (hsegments.symm.trans hothers)
      exact hplays
    · intro h
      exact h code' n segments rfl hn hsegments

end Programs

section Hushed

theorem quoting_turned : (∀ layer ∈ quoting.layers, layer.patterns.length ≤ 1) ∧
    (some true).getD quoting.rotate = true ∧ (some false).getD quoting.rotate = false ∧
    quoting.program 120 4 "seed" { rotate := some true } =
      quoting.program 120 4 "seed" { rotate := some false } := by
  have hsole : ∀ layer ∈ quoting.layers, layer.patterns.length ≤ 1 := by decide
  have hturned := @RuleSet.program_turned quoting hsole false false (some true) (some false)
    rfl rfl 120 4 "seed" {}
  have hsounds : ∀ layer ∈ quoting.layers, ∀ option ∈ layer.patterns, option.value ≠ "" := by
    simp [quoting]
  refine ⟨hsole, rfl, rfl, hturned.2.mpr ?_⟩
  intro _ _ _ _ _ _ segment _ layer hlayer
  exact hsounds layer (layer_of_mem_members hlayer)

/-- A layer whose only pattern is empty, and plays in turn. -/
def hushed : RuleSet where
  layers := [{ id := "pad", kind := .texture, patterns := [⟨"", 1, one_not_negative⟩] }]
  phases := [{ id := "main", layers := ["pad"], share := some (0, 1) }]
  rotate := true
  ids_nodup := by decide

/-- The program of `hushed` where the layer plays a pattern. -/
def hushedProgram (pattern : String) : String := tempoHeader 120 ++ "\n" ++
  sequence ["// 1. PHASE main 1-1\n  stack(\n    s(" ++ literal pattern ++
    ").gain(0.7)\n  ).slow(1)"]

theorem hushed_differs : (∀ layer ∈ hushed.layers, layer.patterns.length ≤ 1) ∧
    hushed.program 120 1 "seed" { rotate := some true } = .ok (hushedProgram "") ∧
    hushed.program 120 1 "seed" { rotate := some false } = .ok (hushedProgram rest) ∧
    hushedProgram "" ≠ hushedProgram rest := by
  have hbars : safeBars 1 = .ok 1 := by decide +kernel
  have hsegments := @segments_of_single hushed _ rfl rfl (by decide +kernel) 1
  rw [cover_single _ (by decide)] at hsegments
  have hprogram : ∀ rotate blocks, segmentBlocks hushed
      (homePatterns (.ofSeed "seed") hushed.layers) rotate { rotate := some rotate } 1
      [⟨hushed.phases.head?, 1, 1, 0⟩] = .ok blocks →
      hushed.program 120 1 "seed" { rotate := some rotate } =
        .ok (tempoHeader 120 ++ "\n" ++ sequence blocks) := by
    intro rotate blocks hblocks
    exact program_eq_ok.mpr
      ⟨by decide +kernel, by decide +kernel, 1, _, blocks, hbars, hsegments, hblocks, rfl⟩
  refine ⟨by decide, hprogram true _ ?_, hprogram false _ ?_, ?_⟩
  · decide +kernel
  · decide +kernel
  · decide +kernel

end Hushed

end PatternLoom
