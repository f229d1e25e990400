import PatternLoom.Binary64.Basic

/-! The ways an operation of this library can fail. -/

namespace PatternLoom

inductive ImportRefusal where
  | tooSmall
  | noHeader
  | independentSequences
  | undecodable
  | timeDivision
  | noNotes
  | tooManyNotes (notes : Nat) (limit : String)
  | unusableContent
  deriving DecidableEq

inductive AccessProblem where
  | missing
  | isFolder
  | notFolder
  deriving DecidableEq

/-- What keeps there from being a moment. -/
inductive MomentFault where
  /-- A zone a day or more away, in minutes. -/
  | zone (minutes : Int)
  | year
  | month
  | day
  | hour
  | minute
  | second
  deriving DecidableEq

inductive Failure where
  | divisionByZero
  /-- `nan` has no integer part. -/
  | notANumber
  /-- An infinity has no integer part. -/
  | unbounded
  /-- An integer or a quotient of integers beyond the range of `Binary64`. -/
  | beyondRange
  | noSuchPosition
  /-- An integer drawn from an interval with no members. -/
  | emptyInterval
  /-- A stream that gave no acceptable draw in a whole period. -/
  | exhaustedStream
  | negativeWeight (pattern : String)
  | unknownKind (kind layer : String)
  | duplicateLayer (layer : String)
  | phaseWithoutRange (phase : String)
  | unknownParamType (type key : String)
  | maxBelowMin (key : String)
  | stepNotPositive (key : String)
  | tempoNotPositive (bpm : Binary64)
  | noSections
  | tooFewBars (bars : Int) (sections : Nat) (minimum : Int)
  | unknownStyle (style : String)
  | unknownLength (length : String)
  | unknownTemplate (name : String)
  | unknownOptions (names : List String)
  | malformedOverride (item : String)
  | noTemplateGiven
  | cannotOpen (problem : AccessProblem) (path : String)
  | refusedImport (reason : ImportRefusal)
  /-- A key signature outside seven flats to seven sharps, or in no mode. -/
  | keySignature
  | malformedDocument
  /-- A text that is no numeral, of the base if there is one given. -/
  | malformedNumeral (base : Option Nat) (text : String)
  /-- A numeral to base ten that is longer than those that are read. -/
  | tooManyDigits (digits : Nat)
  /-- An integer with more digits than one is written with. -/
  | tooLongToWrite
  /-- A date that no calendar has, or a time that no day has. -/
  | noSuchMoment (fault : MomentFault)
  /-- A code beyond those of characters. -/
  | noSuchCharacter
  | undecodableSettings
  | noSettings
  /-- A setting of a kind its use does not admit. -/
  | wrongKind
  deriving DecidableEq

abbrev Result := Except Failure

end PatternLoom
