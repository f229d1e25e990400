import PatternLoom.Binary64.Bits
import PatternLoom.Main
import PatternLoom.Proofs.Binary64.Range
import PatternLoom.Proofs.Result
import PatternLoom.Proofs.Timeline.Placement
import PatternLoom.Proofs.Timeline.Cover
import PatternLoom.Proofs.Timeline.Ownership
import PatternLoom.Proofs.Midi.Pairing
import PatternLoom.Proofs.Binary64.Number
import PatternLoom.Proofs.Midi.Accounting
import PatternLoom.Proofs.Midi.Collected
import PatternLoom.Proofs.Midi.Conservation
import PatternLoom.Proofs.Midi.Decoding
import PatternLoom.Proofs.Midi.Escape
import PatternLoom.Proofs.Midi.Measures
import PatternLoom.Proofs.Midi.Containment
import PatternLoom.Proofs.Decimal.Printed
import PatternLoom.Proofs.Tempo.Directive
import PatternLoom.Proofs.Tempo.Rewriting
import PatternLoom.Proofs.Midi.PatternReading
import PatternLoom.Proofs.Midi.PitchName
import PatternLoom.Proofs.Midi.Cells
import PatternLoom.Proofs.Binary64.Nearest
import PatternLoom.Proofs.Binary64.Whole
import PatternLoom.Proofs.Decimal.Rounded
import PatternLoom.Proofs.Piece.Parameters
import PatternLoom.Proofs.Piece.Rebuilding
import PatternLoom.Proofs.Binary64.Value
import PatternLoom.Proofs.Midi.GridSteps
import PatternLoom.Proofs.Binary64.Scaling
import PatternLoom.Proofs.Midi.Spacing
import PatternLoom.Proofs.Midi.Extent
import PatternLoom.Proofs.Midi.NameCount
import PatternLoom.Proofs.Midi.Sounding
import PatternLoom.Proofs.Program.Reading
import PatternLoom.Proofs.Tempo.Untimed
import PatternLoom.Proofs.Program.Shape
import PatternLoom.Proofs.Tempo.Header
import PatternLoom.Proofs.Arrangement.Shape
import PatternLoom.Proofs.Program.Heading
import PatternLoom.Proofs.Arrangement.Allocation
import PatternLoom.Proofs.Arrangement.Heading
import PatternLoom.Proofs.Arrangement.Reading
import PatternLoom.Proofs.Arrangement.Focus
import PatternLoom.Proofs.Tempo.Parted
import PatternLoom.Proofs.Midi.TempoLine
import PatternLoom.Proofs.Midi.ProgramLines
import PatternLoom.Proofs.Stream.Position
import PatternLoom.Proofs.Piece.Independence
import PatternLoom.Proofs.Program.DrawOrder
import PatternLoom.Proofs.Program.Rotation
import PatternLoom.Proofs.Timeline.Unbroken
import PatternLoom.Proofs.Tempo.Beats
import PatternLoom.Proofs.Stream.Choice
import PatternLoom.Proofs.Midi.Repair
import PatternLoom.Proofs.Midi.Turns
import PatternLoom.Proofs.Midi.Meter
import PatternLoom.Proofs.Midi.Pace
import PatternLoom.Proofs.Midi.Bars
import PatternLoom.Proofs.Binary64.Order
import PatternLoom.Proofs.Order.Stable
import PatternLoom.Proofs.Midi.AtRest
import PatternLoom.Proofs.Timeline.Scaled
import PatternLoom.Proofs.Timeline.Stretched
import PatternLoom.Proofs.Timeline.Tiled
import PatternLoom.Proofs.Piece.Validity
import PatternLoom.Proofs.Binary64.Remainder
import PatternLoom.Proofs.Program.Weights
import PatternLoom.Proofs.Program.SoleChoice
import PatternLoom.Proofs.Tempo.Stripping
import PatternLoom.Proofs.Stream.SeedHash
import PatternLoom.Proofs.Stream.Period
import PatternLoom.Proofs.Stream.Rejection
import PatternLoom.Proofs.Binary64.Between
import PatternLoom.Proofs.Program.Gains
import PatternLoom.Proofs.Catalog.Entries
import PatternLoom.Proofs.Catalog.Levels
import PatternLoom.Proofs.Catalog.Derivation
import PatternLoom.Proofs.Catalog.Audible
import PatternLoom.Proofs.Catalog.Variants
import PatternLoom.Proofs.Arrangement.Modulation
import PatternLoom.Proofs.Program.Speeds
import PatternLoom.Proofs.Command.Completion
import PatternLoom.Proofs.Arrangement.Spreading
import PatternLoom.Proofs.Decimal.Canonical
