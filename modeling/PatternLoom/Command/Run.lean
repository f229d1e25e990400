import PatternLoom.Command.Folder
import PatternLoom.Command.ImportRequest
import PatternLoom.Command.Overrides
import PatternLoom.Command.Product
import PatternLoom.Command.Report
import PatternLoom.Log

/-! A run of the program: settings, command, tempo, output. -/

namespace PatternLoom

/-- What a run finds where it is started: the files that it may look at, the name of the
settings file that is read without being asked for, and a seed for when none is given. -/
structure Surroundings where
  files : Folder := []
  settingsFile : String := "patternloom.yaml"
  freshSeed : String := ""

structure Outcome where
  globals : Globals
  log : List LogEntry
  ending : Except String Product

def nonempty (s : Option String) : Option String := s.filter (!·.isEmpty)

namespace Globals

/-- The name of the settings file, if there is one to be read. -/
def configName (g : Globals) (around : Surroundings) : Option String :=
  (nonempty g.config).or
    (if around.files.has around.settingsFile then some around.settingsFile else none)

/-- The settings in the content of a file; an empty value stands for no settings. -/
def settingsOf (content : List UInt8) : Result Value :=
  match String.fromUTF8? ⟨content.toArray⟩ with
  | none => .error .undecodableSettings
  | some text => do
    let value ← Yaml.load text
    return if value.isTrue then value else .map []

/-- The settings of a run, and what is logged about them. -/
def settings (g : Globals) (around : Surroundings) : Result (Value × List LogEntry) :=
  match g.configName around with
  | none => .ok (.map [], [])
  | some name =>
    if around.files.has name then do return (← settingsOf (← around.files.read name), [])
    else .ok (.map [], [.warning ("Config file " ++ name ++ " not found. Using defaults.")])

def logLevel (g : Globals) (settings : Value) : Result LogLevel :=
  if g.verbose then .ok .debug else LogLevel.ofSettings settings

def retime (g : Globals) (code : String) : String :=
  if g.stripTempo then Tempo.strip code
  else if g.speed.equal 1 && g.bpm.isNone then code
  else Tempo.setCycles code (Tempo.effectiveCycles (Tempo.baseCycles code) g.speed g.bpm)

end Globals

/-- What a command logs on its way, and what it comes to. -/
structure Attempt where
  log : List LogEntry
  result : Result Product

def Template.warnings (t : Template) (overrides : Params) : List LogEntry :=
  (t.unknownKeys overrides).map fun key => .warning (t.unknownKeyWarning key)

/-- The template of a command, or of the settings if it names none. -/
def BuildRequest.chosenTemplate (r : BuildRequest) (settings : Value) : Result Template :=
  match nonempty r.template with
  | some id => catalogTemplate id
  | none => do
    match (← Settings.section? settings "generator").get? "template" with
    | some value => if value.isTrue then catalogTemplate (← value.written) else throw .noTemplateGiven
    | none => throw .noTemplateGiven

/-- Goes on with the template, something to prepare and the overrides of a command. -/
def BuildRequest.attempt {α : Type} (r : BuildRequest) (settings : Value) (prepare : Result α)
    (build : Template → α → Params → Result Product) : Attempt :=
  let start : Result (Template × α × Params) := do
    return (← r.chosenTemplate settings, ← prepare, ← readOverrides r.overrides)
  match start with
  | .ok (t, prepared, overrides) => ⟨t.warnings overrides, build t prepared overrides⟩
  | .error failure => ⟨[], .error failure⟩

def GenerateRequest.attempt (r : GenerateRequest) (settings : Value) (around : Surroundings) :
    Attempt :=
  r.build.attempt settings (.ok ()) fun t () overrides => do
    let bars ← r.bars.mapM Binary64.ofInt
    return .piece (← t.piece (r.build.seed.getD around.freshSeed) r.build.bpm bars overrides)

/-- A choice from the command line, and otherwise from the settings or by default. Only
single values can be chosen. -/
def chosenText (given : Option String) (settings : Section) (name default : String) :
    Result String :=
  match nonempty given with
  | some text => .ok text
  | none =>
    match settings.get? name with
    | none => .ok default
    | some (.list _) | some (.map _) => .error .wrongKind
    | some value => value.written

def ArrangeRequest.attempt (r : ArrangeRequest) (settings : Value) (around : Surroundings) :
    Attempt :=
  r.build.attempt settings (Settings.section? settings "arranger") fun t arranger overrides => do
    let seed := (nonempty r.build.seed).getD around.freshSeed
    let bpm := r.build.bpm.getD t.bpm
    let focused := !r.unfocused && ((arranger.get? "focus_phases").getD (.bool true)).isTrue
    let params ← t.resolve seed overrides
    let style ← chosenText r.style arranger "style" "arc"
    discard (blueprint style)
    let length ← chosenText r.length arranger "length" "medium"
    let arranged ← t.arrange seed bpm style length (some params) focused
    return .arrangement (arranged.piece t seed bpm params style length) arranged.sections

def ImportRequest.attempt (r : ImportRequest) (file : String) (settings : Value)
    (around : Surroundings) : Attempt :=
  let result : Result Midi.Import := do
    let given := r.given (← Settings.section? settings "midi_import")
    Midi.importGiven (← around.files.read file) (baseName file) given
  match result with
  | .ok imported =>
    ⟨imported.notices.map fun n => .warning (n.logLine (baseName file)), .ok (.imported imported)⟩
  | .error failure => ⟨[], .error failure⟩

def Command.attempt (command : Command) (settings : Value) (around : Surroundings) : Attempt :=
  match command with
  | templates => ⟨[], .ok .listing⟩
  | generate request => request.attempt settings around
  | arrange request => request.attempt settings around
  | importMidi file request => request.attempt file settings around

namespace Invocation

/-- The files that a run may look at, apart from the settings file that is always read. -/
def filesOfInterest (i : Invocation) : List String :=
  (nonempty i.globals.config).toList ++
    match i.command with
    | .importMidi file _ => [file]
    | _ => []

/-- The outcome of a run, unless a failure occurs that is not reported. -/
def run (i : Invocation) (around : Surroundings) : Result Outcome := do
  let (settings, noted) ← i.globals.settings around
  let level ← i.globals.logLevel settings
  let attempt := i.command.attempt settings around
  let outcome := fun (more : List LogEntry) (ending : Except String Product) =>
    Outcome.mk i.globals (noted ++ (attempt.log ++ more).filter (·.passes level)) ending
  match attempt.result with
  | .ok product =>
    let product := product.mapCode i.globals.retime
    let written := (nonempty i.globals.output).toList.map fun name => "Wrote " ++ name
    return outcome ((product.summary ++ written).map .info) (.ok product)
  | .error failure =>
    match failure.report with
    | some line => return outcome [] (.error line)
    | none => throw failure

end Invocation

namespace Outcome

def exitCode (o : Outcome) : Nat :=
  match o.ending with
  | .ok _ => 0
  | .error _ => 1

def complaint (o : Outcome) : String :=
  match o.ending with
  | .ok _ => ""
  | .error line => line ++ "\n"

def output (o : Outcome) (stamp : Stamp) : String :=
  match o.ending with
  | .ok product =>
    (if o.globals.asJson then (product.record stamp).render 0 else product.text) ++ "\n"
  | .error _ => ""

/-- The file that the output goes to; standard output without one. -/
def destination (o : Outcome) : Option String := nonempty o.globals.output

/-- The files that a run leaves behind, with the output among them if it goes to one. -/
def leaves (o : Outcome) (stamp : Stamp) (files : Folder) : Result Folder :=
  match o.destination, o.ending with
  | some name, .ok _ => files.write name (o.output stamp).toUTF8.toList
  | _, _ => .ok files

end Outcome

/-- A run to its end. What fails while the output is written is not reported. -/
def Invocation.runToEnd (i : Invocation) (around : Surroundings) (stamp : Stamp) :
    Result (Outcome × Folder) := do
  let outcome ← i.run around
  return (outcome, ← outcome.leaves stamp around.files)

end PatternLoom
