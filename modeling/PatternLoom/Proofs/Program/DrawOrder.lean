import Mathlib
import PatternLoom.Proofs.Program.Reading
import PatternLoom.Proofs.Stream.Position

/-! The order in which the layers of a program draw. A layer with patterns takes one draw and a
layer without takes none, so the draw of a layer is known from the layers declared before it, and
changes elsewhere leave it what it plays. -/

namespace PatternLoom

section Draws

/-- Whether the layer takes a draw to choose a pattern. -/
def Layer.spends (layer : Layer) : Bool := !layer.patterns.isEmpty

def drawnPattern (draw : Binary64) (patterns : List PatternOption) : String :=
  match chooseWeighted (patterns.map fun option => (option.value, option.weight)) draw with
  | some pattern => if pattern.isEmpty then rest else pattern
  | none => rest

theorem weighted_eq {α : Type} (s : Stream) (options : List (α × Binary64)) :
    s.weighted options =
      (chooseWeighted options (s.drawAt 0), s.after (if options.isEmpty then 0 else 1)) := by
  rw [Stream.drawAt_zero]
  cases options with
  | nil => rfl
  | cons first more =>
    cases hnext : s.next with
    | mk draw t =>
      have ht : s.after 1 = t := by
        rw [Stream.after_succ, ← Stream.next_snd, hnext, Stream.after_zero]
      simp only [Stream.weighted, List.isEmpty_cons, Bool.false_eq_true, if_false, hnext, ht]

theorem pickPattern_eq (layer : Layer) (s : Stream) : layer.pickPattern s =
    (drawnPattern (s.drawAt 0) layer.patterns, s.after (if layer.spends then 1 else 0)) := by
  have hspends : (if (layer.patterns.map fun option => (option.value, option.weight)).isEmpty
      then 0 else 1) = if layer.spends then 1 else 0 := by
    cases hpatterns : layer.patterns <;> simp [Layer.spends, hpatterns]
  rw [Layer.pickPattern, weighted_eq, hspends, drawnPattern]
  generalize chooseWeighted _ (s.drawAt 0) = chosen
  cases chosen <;> rfl

theorem homePatterns_cons (s : Stream) (layer : Layer) (layers : List Layer) :
    homePatterns s (layer :: layers) = (layer.id, drawnPattern (s.drawAt 0) layer.patterns) ::
      homePatterns (s.after (if layer.spends then 1 else 0)) layers := by
  rw [homePatterns, pickPattern_eq]

/-- The home pattern of a layer is the one of its own options that the draw chooses at the place
that the layers before it leave. -/
theorem get?_homePatterns {before after : List Layer} {layer : Layer}
    (hfresh : layer.id ∉ before.map Layer.id) (s : Stream) :
    (homePatterns s (before ++ layer :: after)).get? layer.id =
      some (drawnPattern (s.drawAt (before.countP Layer.spends)) layer.patterns) := by
  induction before generalizing s with
  | nil => rw [List.nil_append, homePatterns_cons, Table.get?, if_pos rfl, List.countP_nil]
  | cons first before ih =>
    -- The layer in front is another one, and moves the stream on just if it has patterns.
    obtain ⟨hne, hfresh⟩ := not_or.mp (List.mem_cons.not.mp hfresh)
    rw [List.cons_append, homePatterns_cons, Table.get?, if_neg (Ne.symm hne), ih hfresh,
      Stream.drawAt, ← Stream.after_add, ← Stream.drawAt, List.countP_cons, Nat.add_comm]

theorem RuleSet.get?_home (rules : RuleSet) {before after : List Layer} {layer : Layer}
    (h : rules.layers = before ++ layer :: after) (seed : String) :
    (homePatterns (.ofSeed seed) rules.layers).get? layer.id = some (drawnPattern
      ((Stream.ofSeed seed).drawAt (before.countP Layer.spends)) layer.patterns) := by
  have hnodup := rules.ids_nodup
  rw [h, List.map_append, List.map_cons] at hnodup
  have hfresh : layer.id ∉ before.map Layer.id :=
    fun hmem => List.disjoint_of_nodup_append hnodup hmem List.mem_cons_self
  rw [h]
  exact get?_homePatterns hfresh _

theorem patternIn_congr {home home' : Table String} {layer : Layer}
    (h : home'.get? layer.id = home.get? layer.id) (rotate : Bool) (index : Nat) :
    patternIn rotate home' layer index = patternIn rotate home layer index := by
  simp only [patternIn, h]

end Draws

section Agreement

variable {rules rules' : RuleSet} {home home' : Table String} {rotate : Bool}

/-- Blocks agree where the same layers play the same patterns. -/
theorem segmentBlock_congr {segment : Segment}
    (hmembers : rules'.members segment = rules.members segment)
    (hpattern : ∀ layer ∈ rules.members segment,
      patternIn rotate home' layer segment.index = patternIn rotate home layer segment.index)
    (adjustments : Adjustments) (number : Nat) :
    segmentBlock rules' home' rotate adjustments number segment =
      segmentBlock rules home rotate adjustments number segment := by
  have htexts : (rules.members segment).mapM (fun layer =>
      layer.expression (patternIn rotate home' layer segment.index)
        (resolveLevels layer segment.id segment.levels adjustments) adjustments) =
      (rules.members segment).mapM fun layer =>
        layer.expression (patternIn rotate home layer segment.index)
          (resolveLevels layer segment.id segment.levels adjustments) adjustments := by
    refine mapM_congr fun layer hlayer => ?_
    rw [hpattern layer hlayer]
  rw [segmentBlock, segmentBlock, hmembers, htexts]

theorem segmentBlocks_congr {segments : List Segment}
    (hmembers : ∀ segment ∈ segments, rules'.members segment = rules.members segment)
    (hpattern : ∀ segment ∈ segments, ∀ layer ∈ rules.members segment,
      patternIn rotate home' layer segment.index = patternIn rotate home layer segment.index)
    (adjustments : Adjustments) (number : Nat) :
    segmentBlocks rules' home' rotate adjustments number segments =
      segmentBlocks rules home rotate adjustments number segments := by
  induction segments generalizing number with
  | nil => rfl
  | cons segment segments ih =>
    obtain ⟨hmember, hmembers⟩ := List.forall_mem_cons.mp hmembers
    obtain ⟨hplay, hpattern⟩ := List.forall_mem_cons.mp hpattern
    rw [segmentBlocks, segmentBlocks, segmentBlock_congr hmember hplay, ih hmembers hpattern]

/-- Rules that cut a piece into the same segments and have the same blocks for them have one
program, whatever the seeds are. -/
theorem program_congr {seed seed' : String} {adjustments : Adjustments}
    (hsegments : ∀ n, rules'.segments n = rules.segments n) (hrotate : rules'.rotate = rules.rotate)
    (hblocks : ∀ n segments, rules.segments n = .ok segments →
      segmentBlocks rules' (homePatterns (.ofSeed seed') rules'.layers)
          (adjustments.rotate.getD rules.rotate) adjustments 1 segments =
        segmentBlocks rules (homePatterns (.ofSeed seed) rules.layers)
          (adjustments.rotate.getD rules.rotate) adjustments 1 segments)
    (bpm bars : Binary64) :
    rules'.program bpm bars seed' adjustments = rules.program bpm bars seed adjustments := by
  by_cases htempo : (!bpm.isFinite || decide (bpm ≤ 0)) = true
  · simp only [RuleSet.program, htempo, if_true, throw_bind]
  · simp only [RuleSet.program, htempo, if_false, Bool.false_eq_true]
    refine bind_congr fun n => ?_
    rw [hsegments, hrotate]
    refine bind_congr_ok fun segments hok => ?_
    rw [hblocks n segments hok]

end Agreement

section Appending

/-- The rules with more layers declared behind their own. -/
def RuleSet.append (rules : RuleSet) (more : List Layer)
    (h : ((rules.layers ++ more).map Layer.id).Nodup) : RuleSet :=
  { rules with layers := rules.layers ++ more, ids_nodup := h }

variable {rules : RuleSet} {more : List Layer}
  (h : ((rules.layers ++ more).map Layer.id).Nodup)

theorem home_append (seed : String) {layer : Layer} (hlayer : layer ∈ rules.layers) :
    (homePatterns (.ofSeed seed) (rules.append more h).layers).get? layer.id =
      (homePatterns (.ofSeed seed) rules.layers).get? layer.id := by
  obtain ⟨before, after, hsplit⟩ := List.append_of_mem hlayer
  have hlonger : (rules.append more h).layers = before ++ layer :: (after ++ more) := by
    simp [RuleSet.append, hsplit]
  rw [RuleSet.get?_home _ hlonger, RuleSet.get?_home _ hsplit]

theorem members_append {segment : Segment} (hidle : ∀ layer ∈ more, layer.id ∉ segment.layers) :
    (rules.append more h).members segment = rules.members segment := by
  refine List.filterMap_congr fun id hid => ?_
  have hnone : more.find? (·.id = id) = none := by
    rw [List.find?_eq_none]
    intro layer hlayer
    simp only [decide_eq_true_eq]
    rintro rfl
    exact hidle layer hlayer hid
  simp [RuleSet.layer?, RuleSet.append, List.find?_append, hnone]

theorem segments_append (n : Int) : (rules.append more h).segments n = rules.segments n := rfl

/-- Layers that no phase plays may be declared behind all others. -/
theorem program_append (hidle : ∀ phase ∈ rules.phases, ∀ layer ∈ more, layer.id ∉ phase.layers)
    (bpm bars : Binary64) (seed : String) (adjustments : Adjustments) :
    (rules.append more h).program bpm bars seed adjustments =
      rules.program bpm bars seed adjustments := by
  refine program_congr (segments_append h) rfl (fun n segments hsegments => ?_) bpm bars
  refine segmentBlocks_congr (fun segment hsegment => members_append h fun layer hlayer => ?_)
    (fun segment _ layer hlayer =>
      patternIn_congr (home_append h seed (layer_of_mem_members hlayer)) _ _) adjustments 1
  cases hphase : segment.phase with
  | none => simp [Segment.layers, hphase]
  | some phase =>
    have hmem := RuleSet.segments_phase_mem hsegments hsegment (Option.mem_def.mpr hphase)
    simpa [Segment.layers, hphase] using hidle phase hmem layer hlayer

end Appending

section Replacing

variable {id : String} {patterns : List PatternOption}

/-- The layer with other patterns, if it is the one that the id names. -/
def Layer.withPatterns (id : String) (patterns : List PatternOption) (layer : Layer) : Layer :=
  if layer.id = id then { layer with patterns } else layer

theorem Layer.withPatterns_of_ne {layer : Layer} (h : layer.id ≠ id) :
    layer.withPatterns id patterns = layer := if_neg h

@[simp] theorem Layer.withPatterns_id (layer : Layer) :
    (layer.withPatterns id patterns).id = layer.id := by
  unfold withPatterns
  split <;> rfl

@[simp] theorem Layer.withPatterns_source (layer : Layer) :
    (layer.withPatterns id patterns).source = layer.source := by
  unfold withPatterns
  split <;> rfl

@[simp] theorem Layer.withPatterns_levels (layer : Layer) :
    (layer.withPatterns id patterns).levels = layer.levels := by
  unfold withPatterns
  split <;> rfl

@[simp] theorem Groove.appliesTo_withPatterns (groove : Groove) (layer : Layer) :
    groove.appliesTo (layer.withPatterns id patterns) = groove.appliesTo layer := by
  unfold Layer.withPatterns
  split <;> rfl

/-- The rules with other patterns for the layer that the id names. -/
def RuleSet.withPatterns (rules : RuleSet) (id : String) (patterns : List PatternOption) :
    RuleSet :=
  { rules with
    layers := rules.layers.map (Layer.withPatterns id patterns)
    ids_nodup := by simpa [Function.comp_def] using rules.ids_nodup }

variable {rules : RuleSet}

theorem Layer.spends_withPatterns {layer : Layer} (hnew : patterns ≠ [])
    (hold : layer.id = id → layer.patterns ≠ []) :
    (layer.withPatterns id patterns).spends = layer.spends := by
  by_cases hid : layer.id = id
  · have hempty : patterns.isEmpty = layer.patterns.isEmpty := by
      rw [List.isEmpty_eq_false_iff.mpr hnew, List.isEmpty_eq_false_iff.mpr (hold hid)]
    simp [withPatterns, spends, hid, hempty]
  · rw [withPatterns_of_ne hid]

/-- Other patterns, where there are some before and after, are drawn from at the same place. -/
theorem home_withPatterns (hnew : patterns ≠ [])
    (hold : ∀ layer ∈ rules.layers, layer.id = id → layer.patterns ≠ []) (seed : String)
    {layer : Layer} (hlayer : layer ∈ rules.layers) (hid : layer.id ≠ id) :
    (homePatterns (.ofSeed seed) (rules.withPatterns id patterns).layers).get? layer.id =
      (homePatterns (.ofSeed seed) rules.layers).get? layer.id := by
  obtain ⟨before, after, hsplit⟩ := List.append_of_mem hlayer
  have hother : (rules.withPatterns id patterns).layers =
      before.map (Layer.withPatterns id patterns) ++
        layer :: after.map (Layer.withPatterns id patterns) := by
    simp [RuleSet.withPatterns, hsplit, Layer.withPatterns_of_ne hid]
  have hcount : (before.map (Layer.withPatterns id patterns)).countP Layer.spends =
      before.countP Layer.spends := by
    rw [List.countP_map]
    refine List.countP_congr fun first hfirst => ?_
    have hmem : first ∈ rules.layers := by simp [hsplit, hfirst]
    rw [Function.comp_apply, Layer.spends_withPatterns hnew (hold first hmem)]
  rw [RuleSet.get?_home _ hother, RuleSet.get?_home _ hsplit, hcount]

theorem members_withPatterns (segment : Segment) :
    (rules.withPatterns id patterns).members segment =
      (rules.members segment).map (Layer.withPatterns id patterns) := by
  unfold RuleSet.members
  rw [List.map_filterMap]
  refine List.filterMap_congr fun key _ => ?_
  simp [RuleSet.layer?, RuleSet.withPatterns, List.find?_map]

variable (id patterns) in
theorem Layer.expression_withPatterns {layer : Layer} {pattern text : String} {levels : Levels}
    {adjustments : Adjustments} (h : layer.expression pattern levels adjustments = .ok text)
    (pattern' : String) : ∃ text',
      (layer.withPatterns id patterns).expression pattern' levels adjustments = .ok text' := by
  simp only [Layer.expression, bind_eq_ok] at h
  obtain ⟨gain, hgain, slow, hslow, fast, hfast, h⟩ := h
  simp only [Layer.expression, bind_eq_ok, hgain, hslow, hfast, withPatterns_source,
    Groove.appliesTo_withPatterns, Except.ok.injEq, exists_eq_left']
  cases hgroove : adjustments.groove with
  | none => exact ⟨_, rfl⟩
  | some groove =>
    by_cases happlies : groove.appliesTo layer
    · simp only [hgroove, happlies, if_true, bind_eq_ok] at h ⊢
      obtain ⟨swing, hswing, _⟩ := h
      exact ⟨_, swing, hswing, rfl⟩
    · simp only [happlies]
      exact ⟨_, rfl⟩

end Replacing

section Members

/-- The expression of a layer in a segment. -/
def RuleSet.memberText (rules : RuleSet) (seed : String) (adjustments : Adjustments)
    (segment : Segment) (layer : Layer) : Result String :=
  layer.expression (patternIn (adjustments.rotate.getD rules.rotate)
      (homePatterns (.ofSeed seed) rules.layers) layer segment.index)
    (resolveLevels layer segment.id segment.levels adjustments) adjustments

/-- Blocks for segments with the expressions of their layers. -/
def blocksFrom (number : Nat) (segments : List Segment) (texts : List (List String)) :
    List String :=
  List.zipWith (fun entry members => segmentComment entry.2 entry.1 ++ "\n  " ++
    segmentExpression members entry.1.span) (segments.zipIdx number) texts

theorem segmentBlocks_eq_blocksFrom {rules : RuleSet} {seed : String} {adjustments : Adjustments}
    {number : Nat} {segments : List Segment} {blocks : List String} :
    segmentBlocks rules (homePatterns (.ofSeed seed) rules.layers)
        (adjustments.rotate.getD rules.rotate) adjustments number segments = .ok blocks ↔
      ∃ texts, List.Forall₂ (fun segment members => List.Forall₂
          (fun layer text => rules.memberText seed adjustments segment layer = .ok text)
          (rules.members segment) members) segments texts ∧
        blocks = blocksFrom number segments texts := by
  induction segments generalizing number blocks with
  | nil => simp [segmentBlocks, blocksFrom, eq_comm]
  | cons segment segments ih =>
    simp only [segmentBlocks, bind_eq_ok, pure_eq_ok, ih, segmentBlock_eq_ok,
      List.forall₂_cons_left_iff]
    constructor
    · rintro ⟨_, ⟨members, hmembers, rfl⟩, _, ⟨texts, htexts, rfl⟩, rfl⟩
      exact ⟨members :: texts, ⟨members, texts, hmembers, htexts, rfl⟩, rfl⟩
    · rintro ⟨_, ⟨members, texts, hmembers, htexts, rfl⟩, rfl⟩
      exact ⟨_, ⟨members, hmembers, rfl⟩, _, ⟨texts, htexts, rfl⟩, rfl⟩

variable {rules : RuleSet} {id seed : String} {patterns : List PatternOption}
  {adjustments : Adjustments} {segment : Segment} {layer : Layer}

theorem patternIn_withPatterns (hnew : patterns ≠ [])
    (hold : ∀ layer ∈ rules.layers, layer.id = id → layer.patterns ≠ []) (seed : String)
    (hlayer : layer ∈ rules.layers) (hid : layer.id ≠ id) (rotate : Bool) (index : Nat) :
    patternIn rotate (homePatterns (.ofSeed seed) (rules.withPatterns id patterns).layers) layer
        index =
      patternIn rotate (homePatterns (.ofSeed seed) rules.layers) layer index :=
  patternIn_congr (home_withPatterns hnew hold seed hlayer hid) rotate index

/-- Expressions of a layer under the rules and under those with other patterns for one layer:
they are the same for every other layer. -/
structure PairedMember (rules : RuleSet) (id : String) (patterns : List PatternOption)
    (seed : String) (adjustments : Adjustments) (segment : Segment) (layer : Layer)
    (pair : String × String) : Prop where
  former : rules.memberText seed adjustments segment layer = .ok pair.1
  latter : (rules.withPatterns id patterns).memberText seed adjustments segment
    (layer.withPatterns id patterns) = .ok pair.2
  same : layer.id ≠ id → pair.2 = pair.1

theorem exists_pairedMember (hnew : patterns ≠ [])
    (hold : ∀ layer ∈ rules.layers, layer.id = id → layer.patterns ≠ [])
    (hlayer : layer ∈ rules.layers) {text : String}
    (h : rules.memberText seed adjustments segment layer = .ok text) : ∃ pair : String × String,
      PairedMember rules id patterns seed adjustments segment layer pair ∧ text = pair.1 := by
  by_cases hid : layer.id = id
  · -- Only the calls behind the source can fail, and no pattern stands in them.
    obtain ⟨text', htext'⟩ := Layer.expression_withPatterns id patterns h
      (patternIn (adjustments.rotate.getD rules.rotate)
        (homePatterns (.ofSeed seed) (rules.withPatterns id patterns).layers)
        (layer.withPatterns id patterns) segment.index)
    have hlevels : resolveLevels (layer.withPatterns id patterns) segment.id segment.levels
        adjustments = resolveLevels layer segment.id segment.levels adjustments := by
      simp [resolveLevels]
    rw [← hlevels] at htext'
    exact ⟨(text, text'), ⟨h, htext', fun hne => absurd hid hne⟩, rfl⟩
  · refine ⟨(text, text), ⟨h, ?_, fun _ => rfl⟩, rfl⟩
    rw [Layer.withPatterns_of_ne hid, RuleSet.memberText]
    have hsame := patternIn_withPatterns hnew hold seed hlayer hid
      (adjustments.rotate.getD rules.rotate) segment.index
    rw [← h, RuleSet.memberText, ← hsame]
    rfl

end Members

section Programs

/-- Two programs over the same segments that differ at most in the expressions of one layer. -/
def DifferInLayer (rules : RuleSet) (id : String) (patterns : List PatternOption) (seed : String)
    (adjustments : Adjustments) (bpm bars : Binary64) (code code' : String) : Prop :=
  ∃ n segments pairs, safeBars bars = .ok n ∧ rules.segments n = .ok segments ∧
    List.Forall₂ (fun segment members => List.Forall₂
      (PairedMember rules id patterns seed adjustments segment) (rules.members segment) members)
      segments pairs ∧
    code = tempoHeader bpm ++ "\n" ++
      sequence (blocksFrom 1 segments (pairs.map (List.map Prod.fst))) ∧
    code' = tempoHeader bpm ++ "\n" ++
      sequence (blocksFrom 1 segments (pairs.map (List.map Prod.snd)))

theorem program_withPatterns {rules : RuleSet} {id seed : String} {patterns : List PatternOption}
    {adjustments : Adjustments} {bpm bars : Binary64} {code : String} (hnew : patterns ≠ [])
    (hold : ∀ layer ∈ rules.layers, layer.id = id → layer.patterns ≠ [])
    (h : rules.program bpm bars seed adjustments = .ok code) : ∃ code',
      (rules.withPatterns id patterns).program bpm bars seed adjustments = .ok code' ∧
      DifferInLayer rules id patterns seed adjustments bpm bars code code' := by
  obtain ⟨hfinite, hpos, n, segments, blocks, hn, hsegments, hblocks, rfl⟩ := program_eq_ok.mp h
  obtain ⟨texts, htexts, rfl⟩ := segmentBlocks_eq_blocksFrom.mp hblocks
  obtain ⟨pairs, hpairs, hfst⟩ := exists_forall₂
    (S := fun segment pairs => List.Forall₂
      (PairedMember rules id patterns seed adjustments segment) (rules.members segment) pairs)
    (T := fun members pairs => members = pairs.map Prod.fst) htexts (by
      intro segment _ members hmembers
      obtain ⟨pairs, hpairs, hfst⟩ := exists_forall₂ hmembers fun layer hlayer _ htext =>
        exists_pairedMember hnew hold (layer_of_mem_members hlayer) htext
      refine ⟨pairs, hpairs, ?_⟩
      rwa [← List.forall₂_map_right_iff, List.forall₂_eq_eq_eq] at hfst)
  rw [← List.forall₂_map_right_iff, List.forall₂_eq_eq_eq] at hfst
  have hlatter : List.Forall₂ (fun segment members => List.Forall₂ (fun layer text =>
      (rules.withPatterns id patterns).memberText seed adjustments segment layer = .ok text)
      ((rules.withPatterns id patterns).members segment) members)
      segments (pairs.map (List.map Prod.snd)) := by
    rw [List.forall₂_map_right_iff]
    refine hpairs.imp fun segment members hmembers => ?_
    rw [members_withPatterns, List.forall₂_map_left_iff, List.forall₂_map_right_iff]
    exact hmembers.imp fun _ _ hpair => hpair.latter
  refine ⟨_, program_eq_ok.mpr ⟨hfinite, hpos, n, segments, _, hn, hsegments,
    segmentBlocks_eq_blocksFrom.mpr ⟨_, hlatter, rfl⟩, rfl⟩, n, segments, pairs, hn, hsegments,
    hpairs, ?_, rfl⟩
  rw [hfst]

/-- Draws are taken in the order of the layers: a layer plays what the draw at its place makes of
its own patterns, and neither layers behind it nor the patterns of others change that. -/
structure RuleSet.DrawsInOrder (rules : RuleSet) (seed : String) : Prop where
  /-- The place of a layer is the number of layers with patterns before it. -/
  home : ∀ before layer after, rules.layers = before ++ layer :: after →
    (homePatterns (.ofSeed seed) rules.layers).get? layer.id = some (drawnPattern
      ((Stream.ofSeed seed).drawAt (before.countP Layer.spends)) layer.patterns)
  /-- Layers with ids of their own that no phase plays leave every program as it is. -/
  append : ∀ more h, (∀ phase ∈ rules.phases, ∀ layer ∈ more, layer.id ∉ phase.layers) →
    ∀ bpm bars adjustments, (rules.append more h).program bpm bars seed adjustments =
      rules.program bpm bars seed adjustments
  /-- Other patterns for one layer leave the other layers what they play, rotated or not. -/
  pattern : ∀ id patterns, patterns ≠ [] →
    (∀ layer ∈ rules.layers, layer.id = id → layer.patterns ≠ []) →
    ∀ layer ∈ rules.layers, layer.id ≠ id → ∀ rotate index,
      patternIn rotate (homePatterns (.ofSeed seed) (rules.withPatterns id patterns).layers) layer
          index =
        patternIn rotate (homePatterns (.ofSeed seed) rules.layers) layer index
  /-- And the programs differ at most where that one layer plays. -/
  program : ∀ id patterns, patterns ≠ [] →
    (∀ layer ∈ rules.layers, layer.id = id → layer.patterns ≠ []) →
    ∀ bpm bars adjustments code, rules.program bpm bars seed adjustments = .ok code → ∃ code',
      (rules.withPatterns id patterns).program bpm bars seed adjustments = .ok code' ∧
      DifferInLayer rules id patterns seed adjustments bpm bars code code'

theorem RuleSet.drawsInOrder (rules : RuleSet) (seed : String) : rules.DrawsInOrder seed where
  home _ _ _ h := rules.get?_home h seed
  append _ h hidle bpm bars adjustments := program_append h hidle bpm bars seed adjustments
  pattern _ _ hnew hold _ hlayer hid := patternIn_withPatterns hnew hold seed hlayer hid
  program _ _ hnew hold _ _ _ _ h := program_withPatterns hnew hold h

theorem one_not_negative : ¬ (1 : Binary64) < 0 := by decide +kernel

/-- A layer that no phase of `quoting` plays. -/
def idlePad : Layer :=
  { id := "pad", kind := .texture, patterns := [⟨"hh", 1, one_not_negative⟩] }

theorem quoting_drawsInOrder :
    (quoting.append [idlePad] (by decide)).program 120 4 "seed" {} =
      quoting.program 120 4 "seed" {} ∧
    ∃ code, quoting.program 120 4 "seed" {} = .ok code ∧ ∃ code',
      (quoting.withPatterns "lead" idlePad.patterns).program 120 4 "seed" {} = .ok code' ∧
      DifferInLayer quoting "lead" idlePad.patterns "seed" {} 120 4 code code' := by
  have hdraws := RuleSet.drawsInOrder quoting "seed"
  have hidle : ∀ phase ∈ quoting.phases, ∀ layer ∈ [idlePad], layer.id ∉ phase.layers := by decide
  have hold : ∀ layer ∈ quoting.layers, layer.id = "lead" → layer.patterns ≠ [] := by
    simp [quoting]
  obtain ⟨code, hcode⟩ := quoting_program
  exact ⟨hdraws.append _ _ hidle 120 4 {}, code, hcode,
    hdraws.program _ _ (List.cons_ne_nil _ _) hold 120 4 {} code hcode⟩

end Programs

end PatternLoom
