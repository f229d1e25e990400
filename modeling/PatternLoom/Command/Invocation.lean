import PatternLoom.Arrangement
import PatternLoom.Command.Words

/-! The command line: switches for every command, then the command with switches and words
of its own. -/

namespace PatternLoom

/-- What is said before the command. -/
structure Globals where
  config : Option String := none
  output : Option String := none
  asJson : Bool := false
  speed : Binary64 := 1
  bpm : Option Binary64 := none
  stripTempo : Bool := false
  verbose : Bool := false

/-- What the commands that build from a template have in common. -/
structure BuildRequest where
  template : Option String := none
  seed : Option String := none
  bpm : Option Binary64 := none
  overrides : List String := []

structure GenerateRequest where
  build : BuildRequest := {}
  bars : Option Int := none

structure ArrangeRequest where
  build : BuildRequest := {}
  style : Option String := none
  length : Option String := none
  unfocused : Bool := false

structure ImportRequest where
  file : Option String := none
  division : Option Int := none
  maxTracks : Option Int := none
  maxNotes : Option Int := none
  sharps : Bool := false
  plainGain : Bool := false

inductive Command where
  | templates
  | generate (request : GenerateRequest)
  | arrange (request : ArrangeRequest)
  | importMidi (file : String) (request : ImportRequest)

structure Invocation where
  globals : Globals
  command : Command

namespace Switch

def flag {σ : Type} (names : List String) (set : σ → σ) : Switch σ := ⟨names, .flag set⟩

def text {σ : Type} (names : List String) (set : String → σ → σ) : Switch σ :=
  ⟨names, .value fun value state => some (set value state)⟩

def number {σ : Type} (name : String) (set : Binary64 → σ → σ) : Switch σ :=
  ⟨[name], .value fun value state => (Decimal.readNumber value).map (set · state)⟩

def whole {σ : Type} (name : String) (set : Int → σ → σ) : Switch σ :=
  ⟨[name], .value fun value state => (Decimal.readInt value).map (set · state)⟩

/-- A switch with one of the values that are listed. -/
def oneOf {σ : Type} (name : String) (values : List String) (set : String → σ → σ) : Switch σ :=
  ⟨[name], .value fun value state =>
    if values.contains value then some (set value state) else none⟩

def help {σ : Type} : Switch σ := ⟨["--help", "-h"], .help⟩

end Switch

namespace Globals

def switches : List (Switch Globals) := [
  .text ["--config"] fun value g => { g with config := some value },
  .text ["--output", "-o"] fun value g => { g with output := some value },
  .flag ["--json"] fun g => { g with asJson := true },
  .number "--speed" fun x g => { g with speed := x },
  .number "--bpm-override" fun x g => { g with bpm := some x },
  .flag ["--strip-tempo"] fun g => { g with stripTempo := true },
  .flag ["--verbose", "-v"] fun g => { g with verbose := true },
  .help]

end Globals

namespace BuildRequest

def switches : List (Switch BuildRequest) := [
  .text ["--seed"] fun value r => { r with seed := some value },
  .number "--bpm" fun x r => { r with bpm := some x },
  .text ["--param"] fun value r => { r with overrides := r.overrides ++ [value] }]

end BuildRequest

/-- A switch of a part as one of the whole. -/
def Switch.within {σ τ : Type} (get : τ → σ) (set : σ → τ → τ) (s : Switch σ) : Switch τ :=
  ⟨s.names, match s.effect with
    | .flag f => .flag fun t => set (f (get t)) t
    | .value f => .value fun value t => (f value (get t)).map (set · t)
    | .help => .help⟩

namespace GenerateRequest

def switches : List (Switch GenerateRequest) :=
  BuildRequest.switches.map (Switch.within build fun b r => { r with build := b }) ++
    [.whole "--bars" fun n r => { r with bars := some n }, .help]

def place : Place GenerateRequest :=
  .single false fun word r => { r with build := { r.build with template := some word } }

end GenerateRequest

namespace ArrangeRequest

def switches : List (Switch ArrangeRequest) :=
  BuildRequest.switches.map (Switch.within build fun b r => { r with build := b }) ++ [
    .oneOf "--style" (blueprints.map Blueprint.key) fun value r => { r with style := some value },
    .oneOf "--length" (lengths.map (·.1)) fun value r => { r with length := some value },
    .flag ["--no-focus"] fun r => { r with unfocused := true },
    .help]

def place : Place ArrangeRequest :=
  .single false fun word r => { r with build := { r.build with template := some word } }

end ArrangeRequest

namespace ImportRequest

def switches : List (Switch ImportRequest) := [
  .whole "--division" fun n r => { r with division := some n },
  .whole "--max-tracks" fun n r => { r with maxTracks := some n },
  .whole "--max-notes" fun n r => { r with maxNotes := some n },
  .flag ["--sharps"] fun r => { r with sharps := true },
  .flag ["--no-velocity-gain"] fun r => { r with plainGain := true },
  .help]

def place : Place ImportRequest := .single true fun word r => { r with file := some word }

end ImportRequest

namespace Command

def read (name : String) (words : List String) : Except Rejection Command :=
  if name = "templates" then do
    let () ← readWords [.help] .closed () words
    return templates
  else if name = "generate" then do
    return generate (← readWords GenerateRequest.switches GenerateRequest.place {} words)
  else if name = "arrange" then do
    return arrange (← readWords ArrangeRequest.switches ArrangeRequest.place {} words)
  else if name = "import-midi" then do
    let request ← readWords ImportRequest.switches ImportRequest.place {} words
    match request.file with
    | some file => return importMidi file request
    | none => throw .misuse
  else .error .misuse

end Command

def Invocation.read (words : List String) : Except Rejection Invocation := do
  let place : Place (Globals × Option Command) :=
    .command fun name words state => do return (state.1, some (← Command.read name words))
  let switches := Globals.switches.map (Switch.within Prod.fst fun g state => (g, state.2))
  match ← readWords switches place ({}, none) words with
  | (globals, some command) => return ⟨globals, command⟩
  | _ => throw .misuse

end PatternLoom
