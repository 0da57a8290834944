import MixedState.Decimal.Fixed
import MixedState.Machine.Run
import MixedState.Program.Format
import MixedState.Settings.Format

/-!
# Runs and their reports

A program is run from its beginning and its final state is sampled.  What comes of it is a
report, or a complaint with its wording.
-/

namespace MixedState

structure Report (R : Type) where
  qubits : Nat
  shots : Nat
  memory : String
  counts : KeyMap Nat
  data : Archive R

namespace Report

def toJson (report : Report Float) : Json Float :=
  .obj ([("num_qubits", Json.ofNat report.qubits),
    ("shots", Json.ofNat report.shots),
    ("memory", .str report.memory)]
    ++ (if report.counts.isEmpty then []
      else [("counts", Archive.mapJson Json.ofNat report.counts)])
    ++ [("data", report.data.toJson)])

end Report

inductive Complaint where
  | missingFile (path : String)
  | unreadableFile (path : String)
  | badProgram (path : String) (cause : ProgramError)
  | unreadableSettings (path : String)
  | badYaml (path : String)
  | badJson (path : String)
  | unknownFormat (ending : String)
  | refusal (cause : Refusal)
  | instruction (place : Nat) (name : String) (cause : Refusal)
  | unwritable (path : String)
  | crash

def Complaint.message : Complaint → String
  | .missingFile path => s!"File not found: {path}"
  | .unreadableFile path => s!"Failed to read file: {path}"
  | .badProgram path cause => s!"Failed to load program: {path}: {cause.message}"
  | .unreadableSettings path => s!"Failed to read config: {path}"
  | .badYaml path => s!"Invalid YAML config: {path}"
  | .badJson path => s!"Invalid JSON config: {path}"
  | .unknownFormat ending =>
      s!"Unsupported config format '{ending}' (expected yaml or json)"
  | .refusal cause => cause.message
  | .instruction place name cause =>
      s!"Instruction {place} ('{name}') failed: {cause.message}"
  | .unwritable path => s!"Failed to write output: {path}"
  | .crash => "crashed"

def Complaint.ofFault : Fault → Complaint
  | .refused cause => .refusal cause
  | .crash => .crash

def orComplain {α : Type} (outcome : Outcome α) : Except Complaint α :=
  outcome.mapError Complaint.ofFault

variable {R : Type} [Scalar R]

def runInstructions (e : Experiment R) (final : Bool) (place : Nat) :
    List (Instruction R) → Except Complaint (Experiment R)
  | [] => .ok e
  | op :: rest =>
      match e.apply op (final && rest.isEmpty) with
      | (.ok (), e) => runInstructions e final (place + 1) rest
      | (.error (.refused cause), _) => .error (.instruction place op.name cause)
      | (.error .crash, _) => .error .crash

def countOutcomes (outcomes : List Nat) : KeyMap Nat :=
  outcomes.foldl (fun counts i => counts.update (Hex.label i) fun n => n.getD 0 + 1) .empty

def countShots (e : Experiment R) (qubits shots : Nat) :
    Except Complaint (KeyMap Nat) := do
  if shots = 0 then
    return .empty
  else
    let (outcomes, _) ← orComplain (e.machine.sample (List.range qubits) shots e.source)
    return countOutcomes outcomes

def Program.begin (program : Program R) (settings : Settings R) (seed : Nat) :
    Outcome (Experiment R) := do
  let machine ← Machine.empty.start program.qubits
  let machine ← machine.startClassical program.memory program.registers
  return {
    machine := { machine with settings := settings }
    archive := .empty
    source := Source.ofSeed seed }

/-- Runs the instructions of a program, with its noise put in, from the zero state;
the last may take the state out when nothing is drawn from it. -/
def runProgram (program : Program R) (ops : List (Instruction R)) (settings : Settings R)
    (seed shots : Nat) : Except Complaint (Report R) := do
  let e ← orComplain (program.begin settings seed)
  let e ← runInstructions e (shots == 0) 0 ops
  let counts ← countShots e program.qubits shots
  return {
    qubits := program.qubits
    shots := shots
    memory := e.machine.classical.memoryHex
    counts := counts
    data := e.archive }

/-!
# The table of counts
-/

def maxRows : Nat :=
  16

def alignRight (width : Nat) (text : String) : String :=
  String.ofList (List.replicate (width - text.length) ' ') ++ text

/-- Descending by count; equal counts ascending by label. -/
def precedes (a b : String × Nat) : Bool :=
  b.2 < a.2 || (a.2 == b.2 && a.1 ≤ b.1)

def countRow (shots : Nat) (entry : String × Nat) : String :=
  let percent := Float.ofNat entry.2 / Float.ofNat shots * 100.0
  let blocks := (percent / 2.0).round.toUInt64.toNat
  let bar := String.ofList (List.replicate blocks '█')
  "  " ++ entry.1 ++ ": " ++ alignRight 6 (toString entry.2) ++ " ("
    ++ alignRight 5 (Decimal.fixed 2 percent) ++ "%) " ++ bar ++ "\n"

def countsTable (counts : KeyMap Nat) (shots : Nat) : String :=
  let entries := counts.toList.mergeSort precedes
  let rows := (entries.take maxRows).map (countRow shots)
  let more := entries.length - maxRows
  s!"\n✓ Counts ({shots} shots):\n" ++ String.join rows
    ++ if more = 0 then "" else s!"  ... and {more} more outcomes\n"

end MixedState
