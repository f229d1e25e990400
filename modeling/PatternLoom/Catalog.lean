import PatternLoom.Catalog.Ambient
import PatternLoom.Catalog.AmbientDrift
import PatternLoom.Catalog.BreakbeatPulse
import PatternLoom.Catalog.ChillwaveVibes
import PatternLoom.Catalog.MinimalGroove
import PatternLoom.Catalog.OldSchoolHipHop
import PatternLoom.Catalog.PolyrhythmGrid
import PatternLoom.Catalog.Rap80s
import PatternLoom.Catalog.SwingGroove
import PatternLoom.Catalog.Techno
import PatternLoom.Catalog.TechnoDrive

/-! The catalog of templates, in the order in which it is listed. -/

namespace PatternLoom

def catalog : List Template := [
  Catalog.Ambient.template,
  Catalog.Techno.template,
  Catalog.Rap80s.template,
  Catalog.SwingGroove.template,
  Catalog.TechnoDrive.template,
  Catalog.ChillwaveVibes.template,
  Catalog.OldSchoolHipHop.template,
  Catalog.AmbientDrift.template,
  Catalog.BreakbeatPulse.template,
  Catalog.MinimalGroove.template,
  Catalog.PolyrhythmGrid.template]

def catalogIds : List String := catalog.map Template.id

def catalogTemplate (id : String) : Result Template :=
  match catalog.find? (·.id = id) with
  | some template => .ok template
  | none => .error (.unknownTemplate id)

end PatternLoom
