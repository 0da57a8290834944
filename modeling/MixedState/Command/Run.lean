import MixedState.Command.Files
import MixedState.Command.Report

/-!
# The run command

The files of a request are read, the program is run, and its report is written or printed,
with messages on the way.
-/

namespace MixedState

def loadProgram (files : Files) (path : String) : Except Complaint (Program Float) :=
  match files.look path with
  | .missing => .error (.missingFile path)
  | .unreadable => .error (.unreadableFile path)
  | .text content => (Program.ofText content).mapError (Complaint.badProgram path)

def loadSettings (files : Files) (path : String) : Except Complaint (Settings Float) :=
  match files.look path with
  | .text content =>
      match SettingsFormat.ofPath path with
      | .yaml =>
          match Settings.ofYaml? content with
          | some settings => .ok settings
          | none => .error (.badYaml path)
      | .json =>
          match (Json.parse? content).bind Settings.ofJson? with
          | some settings => .ok settings
          | none => .error (.badJson path)
      | .other ending => .error (.unknownFormat ending)
  | _ => .error (.unreadableSettings path)

structure RunRequest where
  input : String
  settings : Option String
  shots : Nat
  seed : Nat
  output : Option String

structure Transcript where
  messages : String
  result : Except Complaint (Report Float)

namespace Transcript

def fail (messages : String) (complaint : Complaint) : Transcript :=
  ⟨messages, .error complaint⟩

end Transcript

namespace RunRequest

def settingsOf (request : RunRequest) (files : Files) :
    Except Complaint (Settings Float) :=
  match request.settings with
  | some path => loadSettings files path
  | none => .ok .standard

def deliver (request : RunRequest) (written : Bool) (messages : String)
    (report : Report Float) : Transcript :=
  match request.output with
  | none => ⟨messages, .ok report⟩
  | some path =>
      if written then ⟨messages ++ s!"✓ Results written to {path}\n", .ok report⟩
      else Transcript.fail messages (.unwritable path)

def compute (request : RunRequest) (files : Files) : Transcript :=
  let started := s!"→ Running {request.input} ({request.shots} shots)\n"
  match loadProgram files request.input with
  | .error complaint => Transcript.fail started complaint
  | .ok program =>
      match program.lowered with
      | .error fault => Transcript.fail started (.ofFault fault)
      | .ok ops =>
          let loaded := started
            ++ s!"  Loaded: {program.qubits} qubits, {ops.length} instructions\n"
          let result := do
            let settings ← request.settingsOf files
            runProgram program ops settings request.seed request.shots
          match result with
          | .error complaint => Transcript.fail loaded complaint
          | .ok report =>
              let table :=
                if report.shots = 0 then "" else countsTable report.counts report.shots
              ⟨loaded ++ table, .ok report⟩

def perform (request : RunRequest) (files : List (String × String)) : Transcript :=
  let transcript := request.compute (Files.ofFolder files)
  match transcript.result with
  | .error _ => transcript
  | .ok report =>
      let written := (request.output.map Folder.canWrite).getD true
      request.deliver written transcript.messages report

end RunRequest

end MixedState
