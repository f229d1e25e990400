import PatternLoom.Template

/-! Pieces: a program together with all that is needed to build it again. -/

namespace PatternLoom

structure Piece where
  name : String
  templateId : String
  bpm : Binary64
  bars : Int
  seed : String
  params : Params
  code : String

def Piece.version : Int := 2

/-- The piece of a template for a seed. Tempo and length are those of the template where
none are given. -/
def Template.piece (t : Template) (seed : String) (bpm bars : Option Binary64)
    (overrides : Params) : Result Piece := do
  let bpm := bpm.getD t.bpm
  let requested ← match bars with
    | some bars => pure bars
    | none => Binary64.ofInt t.bars
  let bars ← safeBars requested
  let params ← t.resolve seed overrides
  let code ← t.program bpm (← Binary64.ofInt bars) params seed none
  return ⟨t.label ++ " Sketch", t.id, bpm, bars, seed, params, code⟩

end PatternLoom
