import Mathlib
import PatternLoom.Proofs.Catalog.Entries

/-! The levels that each template of the catalog sets, for all parameters that it takes. -/

namespace PatternLoom
namespace Catalog

open Binary64 (Between between_self)

section Templates

variable {params : Params} (seed : String) {a : Adjustments}

theorem Ambient.adjust_fits (h : Ambient.adjust params seed = .ok a) :
    a.Each (Fits params "ambient") ∧ a.Lilts := by
  simp only [Ambient.adjust, bind_eq_ok, pure_eq_ok] at h
  obtain ⟨air, hair, motion, hmotion, rfl⟩ := h
  have ha := clamped_between hair (by decide +kernel)
  have hm := clamped_between hmotion (by decide +kernel)
  refine ⟨?_, lilts_of_none rfl⟩
  simp only [Adjustments.Each, List.forall_mem_cons, List.not_mem_nil, IsEmpty.forall_iff,
    implies_true, and_true]
  refine ⟨⟨?_, ?_, ?_, ?_⟩, ?_, ?_⟩
  · exact fits_line ha (by decide +kernel)
  · exact fits_line hm (by decide +kernel)
  · exact fits_line ha (by decide +kernel)
  · exact fits_faint (.sparkle hair hmotion)
  · exact fits_faint (.bass hmotion)
  · exact fits_line ha (by decide +kernel)

theorem AmbientDrift.adjust_fits (h : AmbientDrift.adjust params seed = .ok a) :
    a.Each (Fits params "ambient-drift") ∧ a.Lilts := by
  simp only [AmbientDrift.adjust, bind_eq_ok, pure_eq_ok] at h
  obtain ⟨airy, hairy, rfl⟩ := h
  have ha := between_unitScale (clamped_between hairy (by decide +kernel))
  refine ⟨?_, lilts_of_none rfl⟩
  simp only [Adjustments.Each, List.forall_mem_cons, List.not_mem_nil, IsEmpty.forall_iff,
    implies_true, and_true]
  refine ⟨?_, ?_, ?_, ?_⟩
  · exact fits_slowed (between_line ha (by decide +kernel)) (between_line ha (by decide +kernel))
      (by decide +kernel)
  · exact fits_slowed (between_line ha (by decide +kernel)) (between_line ha (by decide +kernel))
      (by decide +kernel)
  · exact fits_gain (between_descent ha (by decide +kernel)) (by decide +kernel)
  · exact fits_slowed (between_line ha (by decide +kernel)) (between_line ha (by decide +kernel))
      (by decide +kernel)

theorem BreakbeatPulse.adjust_fits (h : BreakbeatPulse.adjust params seed = .ok a) :
    a.Each (Fits params "breakbeat-pulse") ∧ a.Lilts := by
  simp only [BreakbeatPulse.adjust, bind_eq_ok, pure_eq_ok] at h
  obtain ⟨edge, hedge, rfl⟩ := h
  have he := between_unitScale (clamped_between hedge (by decide +kernel))
  refine ⟨?_, lilts_of_between rfl (between_line he (by decide +kernel)) (by decide +kernel)⟩
  simp only [Adjustments.Each, List.forall_mem_cons, List.not_mem_nil, IsEmpty.forall_iff,
    implies_true, and_true]
  refine ⟨⟨?_, ?_, ?_, ?_, ?_⟩, ?_, ?_, ⟨?_, ?_⟩⟩
  · exact fits_line he (by decide +kernel)
  · exact fits_line he (by decide +kernel)
  · exact fits_line he (by decide +kernel)
  · exact fits_line he (by decide +kernel)
  · exact fits_line he (by decide +kernel)
  · exact fits_line he (by decide +kernel)
  · exact fits_line he (by decide +kernel)
  · exact fits_line he (by decide +kernel)
  · exact fits_line he (by decide +kernel)

theorem ChillwaveVibes.adjust_fits (h : ChillwaveVibes.adjust params seed = .ok a) :
    a.Each (Fits params "chillwave-vibes") ∧ a.Lilts := by
  simp only [ChillwaveVibes.adjust, bind_eq_ok, pure_eq_ok] at h
  obtain ⟨haze, hhaze, rfl⟩ := h
  have hz := between_unitScale (clamped_between hhaze (by decide +kernel))
  refine ⟨?_, lilts_of_none rfl⟩
  simp only [Adjustments.Each, List.forall_mem_cons, List.not_mem_nil, IsEmpty.forall_iff,
    implies_true, and_true]
  refine ⟨?_, ?_, ?_, ?_, ?_, ?_⟩
  · exact fits_gain (between_descent hz (by decide +kernel)) (by decide +kernel)
  · exact fits_gain (between_descent hz (by decide +kernel)) (by decide +kernel)
  · exact fits_gain (between_descent hz (by decide +kernel)) (by decide +kernel)
  · exact fits_slowed (between_line hz (by decide +kernel)) (between_line hz (by decide +kernel))
      (by decide +kernel)
  · exact fits_line hz (by decide +kernel)
  · exact fits_slowed (between_line hz (by decide +kernel)) (between_line hz (by decide +kernel))
      (by decide +kernel)

-- A parameter beyond its bounds counts as the bound.
example : (ChillwaveVibes.adjust [("haze", .text "7")] "seed").map Adjustments.levels =
    (ChillwaveVibes.adjust [("haze", .int 1)] "seed").map Adjustments.levels := by decide +kernel

theorem MinimalGroove.adjust_fits (h : MinimalGroove.adjust params seed = .ok a) :
    a.Each (Fits params "minimal-groove") ∧ a.Lilts := by
  simp only [MinimalGroove.adjust, bind_eq_ok, pure_eq_ok] at h
  obtain ⟨space, hspace, rfl⟩ := h
  have hs := clamped_between hspace (by decide +kernel)
  have hone : Binary64.IsAmount 1 := by decide +kernel
  have hoccupancy := (between_self hone).sub (between_unitScale hs) (by decide +kernel)
  have hscale := between_line (a := 0.45) (b := 0.55) hoccupancy (by decide +kernel)
  have hspread := between_line (a := 0.65) (b := 0.35) hs (by decide +kernel)
  refine ⟨?_, lilts_of_none rfl⟩
  simp only [Adjustments.Each, List.forall_mem_cons, List.not_mem_nil, IsEmpty.forall_iff,
    implies_true, and_true]
  refine ⟨?_, ?_, ?_, ?_, ?_⟩
  · exact fits_gain (between_scaled hscale (by decide +kernel)) (by decide +kernel)
  · exact fits_gain (between_scaled hscale (by decide +kernel)) (by decide +kernel)
  · exact fits_gain (between_scaled hscale (by decide +kernel)) (by decide +kernel)
  · exact fits_gain (between_scaled hscale (by decide +kernel)) (by decide +kernel)
  · exact fits_slowed (between_scaled hspread (by decide +kernel))
      (between_line hs (by decide +kernel)) (by decide +kernel)

theorem OldSchoolHipHop.adjust_fits (h : OldSchoolHipHop.adjust params seed = .ok a) :
    a.Each (Fits params "old-school-hiphop") ∧ a.Lilts := by
  simp only [OldSchoolHipHop.adjust, bind_eq_ok, pure_eq_ok] at h
  obtain ⟨grit, hgrit, rfl⟩ := h
  have hg := clamped_between hgrit (by decide +kernel)
  refine ⟨?_, lilts_of_none rfl⟩
  simp only [Adjustments.Each, List.forall_mem_cons, List.not_mem_nil, IsEmpty.forall_iff,
    implies_true, and_true]
  refine ⟨⟨?_, ?_, ?_, ?_, ?_⟩, ?_, ?_⟩
  · exact fits_line hg (by decide +kernel)
  · exact fits_line hg (by decide +kernel)
  · exact fits_line hg (by decide +kernel)
  · exact fits_line hg (by decide +kernel)
  · exact fits_line hg (by decide +kernel)
  · exact fits_line hg (by decide +kernel)
  · exact fits_line hg (by decide +kernel)

theorem SwingGroove.adjust_fits (h : SwingGroove.adjust params seed = .ok a) :
    a.Each (Fits params "swing-groove") ∧ a.Lilts := by
  simp only [SwingGroove.adjust, bind_eq_ok, pure_eq_ok] at h
  obtain ⟨ratio, hratio, rfl⟩ := h
  have hbase : Binary64.IsAmount 0.52 := by decide +kernel
  have hr := clamped_between hratio (by decide +kernel)
  have hmoved := hr.sub (between_self hbase) (by decide +kernel)
  have hs := hmoved.div (c := 0.14) (by decide +kernel) (by decide +kernel)
  refine ⟨?_, lilts_of_between rfl (between_line hs (by decide +kernel)) (by decide +kernel)⟩
  simp only [Adjustments.Each, List.forall_mem_cons, List.not_mem_nil, IsEmpty.forall_iff,
    implies_true, and_true]
  refine ⟨⟨?_, ?_, ?_, ?_⟩, ?_⟩
  · exact fits_hastened (between_line hs (by decide +kernel)) (between_line hs (by decide +kernel))
      (by decide +kernel)
  · exact fits_line hs (by decide +kernel)
  · exact fits_line hs (by decide +kernel)
  · exact fits_line hs (by decide +kernel)
  · exact fits_line hs (by decide +kernel)

-- What is no number at all gives way to the fallback.
example : (SwingGroove.adjust [("swing", .text "loose")] "seed").map (·.levels) =
    (SwingGroove.adjust [] "seed").map (·.levels) := by decide +kernel

theorem TechnoDrive.adjust_fits (h : TechnoDrive.adjust params seed = .ok a) :
    a.Each (Fits params "techno-drive") ∧ a.Lilts := by
  simp only [TechnoDrive.adjust, bind_eq_ok, pure_eq_ok] at h
  obtain ⟨intensity, hintensity, energy, henergy, rfl⟩ := h
  have hi := clamped_between hintensity (by decide +kernel)
  have he := clamped_between henergy (by decide +kernel)
  refine ⟨?_, lilts_of_none rfl⟩
  simp only [Adjustments.Each, List.forall_mem_cons, List.not_mem_nil, IsEmpty.forall_iff,
    implies_true, and_true]
  refine ⟨⟨?_, ?_, ?_, ?_, ?_⟩, ?_, ?_, ?_⟩
  · exact fits_line hi (by decide +kernel)
  · exact fits_hastened (between_line he (by decide +kernel)) (between_line he (by decide +kernel))
      (by decide +kernel)
  · exact fits_line hi (by decide +kernel)
  · exact fits_line hi (by decide +kernel)
  · exact fits_line hi (by decide +kernel)
  · exact fits_line hi (by decide +kernel)
  · exact fits_line he (by decide +kernel)
  · exact fits_line hi (by decide +kernel)

theorem Techno.adjust_fits (h : Techno.adjust params seed = .ok a) :
    a.Each (Fits params "techno") ∧ a.Lilts := by
  simp only [Techno.adjust, bind_eq_ok, pure_eq_ok] at h
  obtain ⟨drive, hdrive, bright, hbright, ⟨stab, s⟩, _, ⟨perc, s'⟩, _, rfl⟩ := h
  have hd := clamped_between hdrive (by decide +kernel)
  have hb := clamped_between hbright (by decide +kernel)
  have hstabs := @fits_muteUnselected params "techno" stabOptions [stab]
  have hpercs := @fits_muteUnselected params "techno" percOptions [perc]
  have hrumble := @fits_unless params "techno" (s'.next.1 < rumbleChance) _ "rumble"
  refine ⟨?_, lilts_of_none rfl⟩
  simp only [Adjustments.Each, List.forall_mem_cons, List.forall_mem_append, List.not_mem_nil,
    IsEmpty.forall_iff, implies_true, and_true]
  refine ⟨⟨?_, ?_, ?_, ?_, ?_, ?_, ?_, ?_, ?_⟩, ⟨hstabs _, hrumble _⟩,
    ⟨⟨hstabs _, hpercs _⟩, hrumble _⟩, ⟨⟨⟨hstabs _, hpercs _⟩, hrumble _⟩, ?_⟩,
    ⟨⟨hstabs _, hpercs _⟩, hrumble _⟩, ⟨⟨hstabs _, hpercs _⟩, hrumble _⟩, ⟨hstabs _, hrumble _⟩,
    ⟨hstabs _, hrumble _⟩, hrumble _⟩
  · exact fits_line hd (by decide +kernel)
  · exact fits_gain (between_plane hd hb (by decide +kernel)) (by decide +kernel)
  · exact fits_line hd (by decide +kernel)
  · exact fits_line hd (by decide +kernel)
  · exact fits_gain (between_plane hd hb (by decide +kernel)) (by decide +kernel)
  · exact fits_gain (between_plane hd hb (by decide +kernel)) (by decide +kernel)
  · exact fits_gain (between_plane hd hb (by decide +kernel)) (by decide +kernel)
  · exact fits_gain (between_plane hd hb (by decide +kernel)) (by decide +kernel)
  · exact fits_line hd (by decide +kernel)
  · exact fits_line hd (by decide +kernel)

example : (TechnoDrive.adjust [("hat_energy", .real .nan)] "seed").map Adjustments.levels =
    (TechnoDrive.adjust [] "seed").map Adjustments.levels := by decide +kernel

theorem Rap80s.adjust_fits (h : Rap80s.adjust params seed = .ok a) :
    a.Each (Fits params "rap-80s") ∧ a.Lilts := by
  simp only [Rap80s.adjust, bind_eq_ok, pure_eq_ok] at h
  obtain ⟨grit, hgrit, swing, hswing, ⟨ghost, s⟩, _, ⟨clap, s'⟩, _, ⟨hat, t⟩, _, ⟨texture, t'⟩, _,
    rfl⟩ := h
  have hg := clamped_between hgrit (by decide +kernel)
  have hs := clamped_between hswing (by decide +kernel)
  refine ⟨?_, lilts_of_between rfl (between_line hs (by decide +kernel)) (by decide +kernel)⟩
  simp only [Adjustments.Each, List.forall_mem_cons, List.forall_mem_append, List.not_mem_nil,
    IsEmpty.forall_iff, implies_true, and_true]
  refine ⟨⟨?_, ?_, ?_, ?_, ?_, ?_, ?_, ?_, ?_, ?_, ?_, ?_, ?_⟩, ?_,
    ⟨⟨fits_muteUnselected _ _ _, fits_muteUnselected _ _ _⟩, fits_unless _ _ _⟩,
    ⟨⟨⟨fits_muteUnselected _ _ _, fits_muteUnselected _ _ _⟩, fits_muteUnselected _ _ _⟩,
      fits_unless _ _ _⟩, ?_⟩
  · exact fits_line hg (by decide +kernel)
  · exact fits_line hg (by decide +kernel)
  · exact fits_line hg (by decide +kernel)
  · exact fits_line hg (by decide +kernel)
  · exact fits_line hg (by decide +kernel)
  · exact fits_line hg (by decide +kernel)
  · exact fits_line hg (by decide +kernel)
  · exact fits_line hg (by decide +kernel)
  · exact fits_line hg (by decide +kernel)
  · exact fits_line hg (by decide +kernel)
  · exact fits_line hg (by decide +kernel)
  · exact fits_faint (.texture hgrit)
  · exact fits_faint (.textureAlt hgrit)
  · exact fits_line hg (by decide +kernel)
  · exact fits_line hg (by decide +kernel)

/-- The cycles set speeds alone. -/
theorem PolyrhythmGrid.adjust_sets (h : PolyrhythmGrid.adjust params seed = .ok a) :
    a.Each (Sets params "polyrhythm-grid") := by
  simp only [PolyrhythmGrid.adjust, bind_eq_ok, pure_eq_ok] at h
  obtain ⟨x, _, y, _, rfl⟩ := h
  simp only [Adjustments.Each, List.forall_mem_cons, List.not_mem_nil, IsEmpty.forall_iff,
    implies_true, and_true]
  exact ⟨.loud (by simp [Levels.Loud]), .loud (by simp [Levels.Loud])⟩

-- A cycle is not moved within bounds.
example : (PolyrhythmGrid.adjust [("cycle_a", .int (-2))] "seed").map (·.levels.get? "cycle-a") =
    .ok (some { fast := some (.ofFraction true 1 2) }) := by decide +kernel

end Templates

theorem eq_of_id_eq {s t : Template} (hs : s ∈ catalog) (ht : t ∈ catalog) (h : s.id = t.id) :
    s = t := by
  have hnodup : (catalog.map Template.id).Nodup := by decide
  exact List.inj_on_of_nodup_map hnodup hs ht h

theorem eq_polyrhythmGrid {t : Template} (ht : t ∈ catalog) (h : t.id = "polyrhythm-grid") :
    t = PolyrhythmGrid.template := eq_of_id_eq ht (by simp [catalog]) h

theorem adjust_fits {t : Template} (ht : t ∈ catalog) (hne : t.id ≠ "polyrhythm-grid")
    {params : Params} {seed : String} {a : Adjustments} (h : t.adjust params seed = .ok a) :
    a.Each (Fits params t.id) ∧ a.Lilts := by
  simp only [catalog, List.mem_cons, List.not_mem_nil, or_false] at ht
  rcases ht with rfl | rfl | rfl | rfl | rfl | rfl | rfl | rfl | rfl | rfl | rfl
  · exact Ambient.adjust_fits seed h
  · exact Techno.adjust_fits seed h
  · exact Rap80s.adjust_fits seed h
  · exact SwingGroove.adjust_fits seed h
  · exact TechnoDrive.adjust_fits seed h
  · exact ChillwaveVibes.adjust_fits seed h
  · exact OldSchoolHipHop.adjust_fits seed h
  · exact AmbientDrift.adjust_fits seed h
  · exact BreakbeatPulse.adjust_fits seed h
  · exact MinimalGroove.adjust_fits seed h
  · exact absurd rfl hne

theorem adjust_sets {t : Template} (ht : t ∈ catalog) {params : Params} {seed : String}
    {a : Adjustments} (h : t.adjust params seed = .ok a) : a.Each (Sets params t.id) := by
  by_cases hid : t.id = "polyrhythm-grid"
  · obtain rfl := eq_polyrhythmGrid ht hid
    exact PolyrhythmGrid.adjust_sets seed h
  · exact (adjust_fits ht hid h).1.imp fun _ _ _ hf => hf.1

end Catalog
end PatternLoom
