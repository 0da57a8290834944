import MixedState.Noise.Model

/-!
# Programs

A program has the sizes of its registers, its instructions, and the noise that
acts on its qubits.
-/

namespace MixedState

structure Program (R : Type) where
  qubits : Nat
  memory : Nat
  registers : Nat
  ops : List (Instruction R)
  noise : List (NoiseSource R)

inductive ProgramError where
  | unreadable
  | instructionQubit (place : Nat) (name : String) (qubit qubits : Nat)
  | noiseQubit (model : String) (qubit qubits : Nat)

def ProgramError.message : ProgramError → String
  | .unreadable => "Invalid program JSON"
  | .instructionQubit place name qubit qubits =>
      s!"Instruction {place} ('{name}') uses qubit {qubit}, but the program has {qubits} qubits"
  | .noiseQubit model qubit qubits =>
      s!"Noise model {model} targets qubit {qubit}, but the program has {qubits} qubits"

namespace Program

def strayInstruction? {R : Type} (qubits place : Nat) :
    List (Instruction R) → Option ProgramError
  | [] => none
  | op :: rest =>
      match op.qubits.find? fun q => qubits ≤ q with
      | some q => some (.instructionQubit place op.name q qubits)
      | none => strayInstruction? qubits (place + 1) rest

def strayNoise? (qubits : Nat) (noise : List (NoiseSource Float)) : Option ProgramError :=
  (noise.find? fun source => qubits ≤ source.qubit).map fun source =>
    .noiseQubit source.model.describe source.qubit qubits

def check (program : Program Float) : Except ProgramError (Program Float) :=
  match strayInstruction? program.qubits 0 program.ops with
  | some error => .error error
  | none =>
      match strayNoise? program.qubits program.noise with
      | some error => .error error
      | none => .ok program

variable {R : Type} [Scalar R]

/-- The instruction for a noise source on the `place`-th qubit of its host, if the
host is of the kind that the source acts on: readout errors act on measurements that
write a memory slot, other noise on gates. -/
def noiseOn (op : Instruction R) (place qubit : Nat) (model : NoiseModel R) :
    Outcome (List (Instruction R)) :=
  let isReadout := model.readout?.isSome
  let slot? := match op.kind with
    | .gate => if isReadout then none else some 0
    | .measure => if isReadout then op.memory[place]? else none
    | _ => none
  match slot? with
  | none => .ok []
  | some slot =>
      (model.toInstruction qubit slot).map fun noise =>
        [match op.condition with
          | some bit => noise.withCondition bit
          | none => noise]

/-- The instructions for the noise on the qubits of a host, the first of which is
its `place`-th; noise runs when its host does. -/
def noiseAfter (noise : List (NoiseSource R)) (op : Instruction R) (place : Nat) :
    List Nat → Outcome (List (Instruction R))
  | [] => .ok []
  | qubit :: rest => do
      let here ← (noise.filter fun source => source.qubit == qubit).mapM fun source =>
        noiseOn op place qubit source.model
      return here.flatten ++ (← noiseAfter noise op (place + 1) rest)

def withNoise (noise : List (NoiseSource R)) :
    List (Instruction R) → Outcome (List (Instruction R))
  | [] => .ok []
  | op :: rest => do
      let added ← noiseAfter noise op 0 op.qubits
      return op :: added ++ (← withNoise noise rest)

def lowered (program : Program R) : Outcome (List (Instruction R)) :=
  withNoise program.noise program.ops

end Program

end MixedState
