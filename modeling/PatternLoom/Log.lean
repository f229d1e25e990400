import PatternLoom.Settings

/-! The log of a run. -/

namespace PatternLoom

inductive LogLevel where
  | all
  | debug
  | info
  | warning
  | error
  | critical
  deriving DecidableEq

namespace LogLevel

def rank : LogLevel → Nat
  | all => 0
  | debug => 10
  | info => 20
  | warning => 30
  | error => 40
  | critical => 50

def name : LogLevel → String
  | all => "NOTSET"
  | debug => "DEBUG"
  | info => "INFO"
  | warning => "WARNING"
  | error => "ERROR"
  | critical => "CRITICAL"

/-- The levels by name; two have a second one. -/
def names : List (String × LogLevel) :=
  ([all, debug, info, warning, error, critical].map fun level => (level.name, level)) ++
    [("WARN", warning), ("FATAL", critical)]

/-- A letter in upper case, as far as names of levels are concerned. -/
def upperLetter (c : Char) : Char :=
  if c = 'ı' then 'I' else if c = 'ſ' then 'S' else c.toUpper

/-- The level with a name, in any case; `info` for what names none. -/
def ofName (name : String) : LogLevel :=
  (names.lookup (String.ofList (name.toList.map upperLetter))).getD info

def ofSettings (settings : Value) : Result LogLevel := do
  let logging ← Settings.section? settings "logging"
  return ofName (← ((logging.get? "level").getD (.text info.name)).written)

end LogLevel

structure LogEntry where
  level : LogLevel
  message : String
  deriving DecidableEq

namespace LogEntry

def info (message : String) : LogEntry := ⟨.info, message⟩

def warning (message : String) : LogEntry := ⟨.warning, message⟩

def line (e : LogEntry) : String := e.level.name ++ " " ++ e.message

/-- Whether an entry is important enough to be logged. -/
def passes (threshold : LogLevel) (e : LogEntry) : Bool := threshold.rank ≤ e.level.rank

end LogEntry
end PatternLoom
