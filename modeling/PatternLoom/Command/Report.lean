import PatternLoom.Failure.Message

/-! The failures that a command reports in one line. All others end the program. -/

namespace PatternLoom
namespace Failure

/-- The class of a failure that is reported. -/
def reportKind : Failure → String
  | refusedImport reason => reason.code
  | phaseWithoutRange _ => "invalid_rules"
  | unknownTemplate _ => "unknown_template"
  | _ => "invalid_argument"

/-- The system's number and wording for a problem with a path. -/
def accessText : AccessProblem → String
  | .missing => "[Errno 2] No such file or directory: "
  | .isFolder => "[Errno 21] Is a directory: "
  | .notFolder => "[Errno 20] Not a directory: "

/-- A span of minutes as a call that makes it. -/
def spanText (minutes : Int) : String :=
  let days := minutes.fdiv 1440
  let seconds := minutes.fmod 1440 * 60
  let parts := (if days = 0 then [] else ["days=" ++ toString days]) ++
    (if seconds = 0 then [] else ["seconds=" ++ toString seconds])
  "datetime.timedelta(" ++ ", ".intercalate parts ++ ")"

def momentFaultText : MomentFault → String
  | .zone minutes =>
    "offset must be a timedelta strictly between -timedelta(hours=24) and " ++
      "timedelta(hours=24), not " ++ spanText minutes ++ "."
  | .year => "year 0 is out of range"
  | .month => "month must be in 1..12"
  | .day => "day is out of range for month"
  | .hour => "hour must be in 0..23"
  | .minute => "minute must be in 0..59"
  | .second => "second must be in 0..59"

def reportText : Failure → Option String
  | notANumber => some "cannot convert float NaN to integer"
  | malformedNumeral (some base) text =>
    some ("invalid literal for int() with base " ++ toString base ++ ": " ++ shown text)
  | malformedNumeral none text => some ("could not convert string to float: " ++ shown text)
  | tooManyDigits digits =>
    some ("Exceeds the limit (" ++ toString Decimal.digitLimit ++
      " digits) for integer string conversion: value has " ++ toString digits ++
      " digits; use sys.set_int_max_str_digits() to increase the limit")
  | tooLongToWrite =>
    some ("Exceeds the limit (" ++ toString Decimal.digitLimit ++
      " digits) for integer string conversion; use sys.set_int_max_str_digits() to increase the limit")
  | noSuchMoment fault => some (momentFaultText fault)
  | noSuchCharacter => some "chr() arg not in range(0x110000)"
  | cannotOpen problem path => some (accessText problem ++ shown path)
  | failure => failure.message

/-- The line that reports a failure, if it is one of those that are reported. -/
def report (failure : Failure) : Option String :=
  failure.reportText.map fun text => "error: " ++ failure.reportKind ++ ": " ++ text

end Failure
end PatternLoom
