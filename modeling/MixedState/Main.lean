import MixedState.Command.Arguments
import MixedState.Command.Memory
import MixedState.Command.Version
import MixedState.Decimal.Shortest
import MixedState.Json.Printer

/-!
# The command line

Reads files and prints; everything else is decided elsewhere.
-/

namespace MixedState

def lookAt (path : String) : IO FileState := do
  try
    return .text (← IO.FS.readFile path)
  catch error =>
    match error with
    | .noFileOrDirectory .. => return .missing
    | _ => return .unreadable

def gatherFiles (paths : List String) : IO Files := do
  return Files.ofList (← paths.mapM fun path => do return (path, ← lookAt path))

def writeOutput (path text : String) : IO Bool := do
  try
    IO.FS.writeFile path text
    return true
  catch _ =>
    return false

def reportText (report : Report Float) : String :=
  report.toJson.pretty Decimal.text 0

def finish (transcript : Transcript) : IO UInt32 := do
  IO.eprint transcript.messages
  match transcript.result with
  | .ok _ => return 0
  | .error complaint =>
      IO.eprintln s!"Error: {complaint.message}"
      return 1

def runCommand (request : RunRequest) : IO UInt32 := do
  let files ← gatherFiles (request.input :: request.settings.toList)
  let transcript := request.compute files
  match transcript.result, request.output with
  | .error _, _ => finish transcript
  | .ok report, some path => do
      let written ← writeOutput path (reportText report)
      finish (request.deliver written transcript.messages report)
  | .ok report, none => do
      IO.println (reportText report)
      finish transcript

def runMemory (qubits : Nat) : IO UInt32 :=
  match memoryLine qubits with
  | .ok line => do
      IO.print line
      return 0
  | .error _ => do
      IO.eprintln "Error: the size overflows"
      return 1

end MixedState

def main (args : List String) : IO UInt32 := do
  let seed ← IO.rand 0 (MixedState.bufferLimit - 1)
  match MixedState.Command.ofArguments? seed args with
  | some (.run request) => MixedState.runCommand request
  | some (.memory qubits) => MixedState.runMemory qubits
  | some .version => do
      IO.print MixedState.versionText
      return 0
  | none => do
      IO.eprint MixedState.usage
      return 2
