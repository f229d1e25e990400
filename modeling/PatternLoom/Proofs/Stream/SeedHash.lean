import Mathlib
import PatternLoom.Proofs.Arrangement.Focus

/-! Seeds that hash apart. One step of the hash loses nothing of the hash before it and nothing of
the unit that it takes in, so two seeds that differ in one unit only never meet again. The sections
of an arrangement have such seeds: they end in their numbers. -/

namespace PatternLoom

/-- The 16-bit units of a seed. -/
def seedUnits (seed : String) : List Nat := seed.toList.flatMap codeUnits

/-- Seeds with as many units that differ in exactly one of them. -/
def DifferInOneUnit (s t : String) : Prop :=
  (seedUnits s).length = (seedUnits t).length ∧ ∃! i : Nat, (seedUnits s)[i]? ≠ (seedUnits t)[i]?

section Steps

theorem codeUnits_lt {c : Char} {u : Nat} (h : u ∈ codeUnits c) : u < 2 ^ 32 := by
  have hc : c.toNat < 0x110000 := c.valid.elim (fun h => h.trans (by decide)) And.right
  unfold codeUnits at h
  dsimp only at h
  split at h
  · rw [List.mem_singleton] at h
    omega
  · rw [List.mem_pair] at h
    omega

theorem seedUnits_lt {seed : String} {u : Nat} (h : u ∈ seedUnits seed) : u < 2 ^ 32 := by
  obtain ⟨c, _, hu⟩ := List.mem_flatMap.mp h
  exact codeUnits_lt hu

theorem seedUnits_append (s t : String) : seedUnits (s ++ t) = seedUnits s ++ seedUnits t := by
  rw [seedUnits, String.toList_append, List.flatMap_append, ← seedUnits, ← seedUnits]

theorem xor_right_injective (h : UInt32) : Function.Injective (h ^^^ ·) := by
  intro a b hab
  refine UInt32.toBitVec_inj.mp ((BitVec.xor_right_inj h.toBitVec).mp ?_)
  exact congrArg UInt32.toBitVec hab

/-- The prime of the hash is odd, so multiplying by it can be undone. -/
theorem mul_prime_injective : Function.Injective (fun h : UInt32 => h * 16777619) := by
  intro a b hab
  have hinverse : (16777619 : UInt32) * 899433627 = 1 := by decide
  have hundone := congrArg (· * 899433627) hab
  simpa only [UInt32.mul_assoc, hinverse, UInt32.mul_one] using hundone

theorem hashUnit_left_injective (u : Nat) : Function.Injective (hashUnit · u) := by
  intro a b hab
  have hxor : UInt32.ofNat u ^^^ a = UInt32.ofNat u ^^^ b := by
    rw [UInt32.xor_comm _ a, UInt32.xor_comm _ b]
    exact mul_prime_injective hab
  exact xor_right_injective _ hxor

theorem hashUnit_right_injective (h : UInt32) {u v : Nat} (hu : u < 2 ^ 32) (hv : v < 2 ^ 32)
    (he : hashUnit h u = hashUnit h v) : u = v := by
  have hunits := congrArg UInt32.toNat (xor_right_injective h (mul_prime_injective he))
  rwa [UInt32.toNat_ofNat_of_lt' hu, UInt32.toNat_ofNat_of_lt' hv] at hunits

/-- Whatever units follow, different hashes stay different. -/
theorem foldl_hashUnit_injective (us : List Nat) :
    Function.Injective (fun h => us.foldl hashUnit h) := by
  induction us with
  | nil => exact fun _ _ h => h
  | cons u us ih => exact ih.comp (hashUnit_left_injective u)

theorem hashSeed_ne_of_split {s t : String} {before after : List Nat} {u v : Nat}
    (hs : seedUnits s = before ++ u :: after) (ht : seedUnits t = before ++ v :: after)
    (hne : u ≠ v) : hashSeed s ≠ hashSeed t := by
  have hu : u < 2 ^ 32 := seedUnits_lt (show u ∈ seedUnits s by simp [hs])
  have hv : v < 2 ^ 32 := seedUnits_lt (show v ∈ seedUnits t by simp [ht])
  intro he
  rw [hashSeed, hashSeed, ← seedUnits, ← seedUnits, hs, ht, List.foldl_append, List.foldl_append]
    at he
  exact hne (hashUnit_right_injective _ hu hv (foldl_hashUnit_injective after he))

end Steps

/-- Lists that differ in one place are alike before it and after it. -/
theorem exists_split_of_differ {xs ys : List Nat} (hlen : xs.length = ys.length) {i : Nat}
    (hne : xs[i]? ≠ ys[i]?) (heq : ∀ j, xs[j]? ≠ ys[j]? → j = i) :
    ∃ before u v after, xs = before ++ u :: after ∧ ys = before ++ v :: after ∧ u ≠ v := by
  have hi : i < xs.length := by
    by_contra hge
    rw [List.getElem?_eq_none (by omega), List.getElem?_eq_none (by omega)] at hne
    exact hne rfl
  have hi' : i < ys.length := hlen ▸ hi
  have hbefore : xs.take i = ys.take i := by
    refine List.ext_getElem? fun j => ?_
    rw [List.getElem?_take, List.getElem?_take]
    split
    · rename_i hj
      by_contra hc
      exact hj.ne (heq j hc)
    · rfl
  have hafter : xs.drop (i + 1) = ys.drop (i + 1) := by
    refine List.ext_getElem? fun j => ?_
    rw [List.getElem?_drop, List.getElem?_drop]
    by_contra hc
    have hj := heq _ hc
    omega
  refine ⟨xs.take i, xs.get ⟨i, hi⟩, ys.get ⟨i, hi'⟩, xs.drop (i + 1), ?_, ?_, ?_⟩
  · rw [List.get_eq_getElem, ← List.drop_eq_getElem_cons, List.take_append_drop]
  · rw [hbefore, hafter, List.get_eq_getElem, ← List.drop_eq_getElem_cons, List.take_append_drop]
  · intro hget
    rw [List.getElem?_eq_getElem hi, List.getElem?_eq_getElem hi'] at hne
    exact hne (congrArg some hget)

section Sections

/-- The numbers of the sections have one digit. -/
theorem seedUnits_number : ∀ i < 5, seedUnits ("-" ++ toString i) = [45, 48 + i] := by decide

theorem seedUnits_sectionSeed (seed : String) {i : Nat} (hi : i < 5) :
    seedUnits (sectionSeed seed i) = (seedUnits seed ++ [45]) ++ [48 + i] := by
  rw [sectionSeed, String.append_assoc, seedUnits_append, seedUnits_number i hi, List.append_assoc]
  rfl

theorem ofSeed_sectionSeed_ne (seed : String) {i j : Nat} (hi : i < 5) (hj : j < 5) (hne : i ≠ j) :
    (Stream.ofSeed (sectionSeed seed i)).state ≠ (Stream.ofSeed (sectionSeed seed j)).state :=
  hashSeed_ne_of_split (seedUnits_sectionSeed seed hi) (seedUnits_sectionSeed seed hj) (by omega)

/-- The states that the sections of an arrangement start from. -/
def sectionStates (seed : String) : List UInt32 :=
  (List.range 5).map fun i => (Stream.ofSeed (sectionSeed seed i)).state

theorem sectionStates_nodup (seed : String) : (sectionStates seed).Nodup := by
  rw [sectionStates, List.nodup_map_iff_inj_on List.nodup_range]
  intro i hi j hj he
  by_contra hne
  exact ofSeed_sectionSeed_ne seed (List.mem_range.mp hi) (List.mem_range.mp hj) hne he

/-- The sections of an arrangement are five, and each is a program of the template from the seed of
its place. -/
def Arrangement.FromSectionSeeds (a : Arrangement) (t : Template) (seed : String) (bpm : Binary64) :
    Prop :=
  List.Forall₂ (fun i s => ∃ length own rules code,
    t.program bpm length own (sectionSeed seed i) rules = .ok code ∧
      s.code = Tempo.stripLeading code) (List.range 5) a.sections

theorem Template.arrange_fromSectionSeeds {t : Template} {seed style length : String}
    {bpm : Binary64} {params : Option Params} {focused : Bool} {a : Arrangement}
    (h : t.arrange seed bpm style length params focused = .ok a) :
    a.FromSectionSeeds t seed bpm := by
  obtain ⟨b, total, plan, arranged, hb, htotal, hplan, harranged, rfl⟩ := arrange_eq_ok.mp h
  obtain ⟨hfive, _⟩ := plan_of_blueprint hb htotal hplan
  have hcount : ((b.sections.map (·.1)).zip plan).length = 5 := by
    rw [List.length_zip, List.length_map, blueprint_sections hb, hfive]
    rfl
  have hplaces : (((b.sections.map (·.1)).zip plan).zipIdx 0).map Prod.snd = List.range 5 := by
    rw [List.zipIdx_map_snd, hcount, List.range_eq_range']
  rw [Arrangement.FromSectionSeeds, ← hplaces, List.forall₂_map_left_iff]
  refine (arrangedSections_eq_ok.mp harranged).imp fun entry s hs => ?_
  obtain ⟨own, focus, length, code, _, _, _, hcode, rfl⟩ := arrangedSection_eq_ok.mp hs
  exact ⟨length, own, _, code, hcode, rfl⟩

end Sections

/-- Seeds with one unit of difference have different hashes, and the sections of an arrangement
start from five different states. -/
theorem hashSeed_tellsApart :
    (∀ s t : String, DifferInOneUnit s t → hashSeed s ≠ hashSeed t) ∧
    ∀ seed : String, (sectionStates seed).Nodup ∧
      ∀ (t : Template) bpm style length params focused a,
        t.arrange seed bpm style length params focused = .ok a → a.FromSectionSeeds t seed bpm := by
  refine ⟨?_, fun seed => ⟨sectionStates_nodup seed, ?_⟩⟩
  · rintro s t ⟨hlen, i, hi, honly⟩
    obtain ⟨before, u, v, after, hs, ht, hne⟩ := exists_split_of_differ hlen hi honly
    exact hashSeed_ne_of_split hs ht hne
  · exact fun t bpm style length params focused a h => t.arrange_fromSectionSeeds h

/-- The second unit of a character beyond the first plane, with a section behind it. -/
theorem cymbals_tellApart : DifferInOneUnit "drum-🥁-0" "drum-🥂-0" ∧
    hashSeed "drum-🥁-0" ≠ hashSeed "drum-🥂-0" ∧ (sectionStates "drum-🥁").Nodup := by
  have hdiffer : DifferInOneUnit "drum-🥁-0" "drum-🥂-0" := by
    have hs : seedUnits "drum-🥁-0" = [100, 114, 117, 109, 45, 55358, 56641, 45, 48] := by decide
    have ht : seedUnits "drum-🥂-0" = [100, 114, 117, 109, 45, 55358, 56642, 45, 48] := by decide
    rw [DifferInOneUnit, hs, ht]
    refine ⟨rfl, 6, by decide, fun i hi => ?_⟩
    match i with
    | 6 => rfl
    | 0 | 1 | 2 | 3 | 4 | 5 | 7 | 8 => exact absurd rfl hi
    | i + 9 => exact absurd rfl hi
  obtain ⟨hhash, hstates⟩ := hashSeed_tellsApart
  exact ⟨hdiffer, hhash _ _ hdiffer, (hstates _).1⟩

end PatternLoom
