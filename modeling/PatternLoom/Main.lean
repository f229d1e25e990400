import PatternLoom.Command.Run
import PatternLoom.Command.Stamp
import Std.Time.DateTime.Timestamp

/-! The program: reads the files that a command line is about, runs it and puts out what
comes of it. -/

namespace PatternLoom

/-- What is printed for a command line that is not accepted. -/
def usage : String :=
  "usage: patternloom [-h] [--config CONFIG] [--output OUTPUT] [--json] [--speed SPEED]\n" ++
  "                   [--bpm-override BPM] [--strip-tempo] [--verbose]\n" ++
  "                   \x7btemplates,generate,arrange,import-midi\x7d ..."

/-- The files among those named that can be read. -/
def readFiles : List String → IO (Table (List UInt8))
  | [] => return []
  | name :: names => do
    let content ← try pure (some (← IO.FS.readBinFile name)) catch _ => pure none
    let files ← readFiles names
    return match content with
      | some bytes => files.put name bytes.toList
      | none => files

def freshStamp : IO Stamp := do
  let id := idText (← IO.getRandomBytes 16).toList
  let now ← Std.Time.Timestamp.now
  return ⟨id, timeText now.toMillisecondsSinceUnixEpoch.val⟩

def finish (outcome : Outcome) : IO UInt32 := do
  let text := outcome.output (← freshStamp)
  match outcome.destination, outcome.ending with
  | some name, .ok _ => IO.FS.writeFile name text
  | _, _ => IO.print text
  for entry in outcome.log do IO.eprintln entry.line
  IO.eprint outcome.complaint
  return UInt32.ofNat outcome.exitCode

def runWords (words : List String) : IO UInt32 := do
  match Invocation.read words with
  | .error .help => IO.println usage; return 0
  | .error .misuse => IO.eprintln usage; return 2
  | .ok invocation =>
    let around : Surroundings := { freshSeed := seedText (← IO.getRandomBytes 8).toList }
    let files ← readFiles (around.settingsFile :: invocation.filesOfInterest)
    match invocation.run { around with files := files } with
    | .ok outcome => finish outcome
    | .error failure =>
      IO.eprintln ("failed: " ++ failure.message.getD "the input is not usable")
      return 1

end PatternLoom

def main (words : List String) : IO UInt32 := PatternLoom.runWords words
