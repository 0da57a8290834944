import MixedState.InPlace.Classical
import MixedState.InPlace.Machine
import MixedState.Machine.Run

/-!
# Instructions in place

An instruction as a procedure on an experiment: what is drawn, projected, recorded or
saved is written in turn, and stays written where a later step fails.
-/

namespace MixedState

open Procedure

variable {R : Type} [Scalar R]

namespace Store.InPlace

/-- Takes the buffer out, and then fails if it is no matrix. -/
def take : Procedure (Store R) (Mat R) := do
  let store ← get
  set ({ store with data := #[] } : Store R)
  let dim ← store.dim
  if store.data.size = dim * dim then
    Mat.ofColumns dim store.data
  else
    refuse (.elementCount "save_state" (← checkedMul dim dim) store.data.size)

end Store.InPlace

namespace Experiment.InPlace

def machineField : Field (Experiment R) (Machine R) :=
  ⟨Experiment.machine, fun e m => { e with machine := m }⟩

def classicalField : Field (Experiment R) Classical :=
  ⟨fun e => e.machine.classical,
    fun e c => { e with machine := { e.machine with classical := c } }⟩

def archiveField : Field (Experiment R) (Archive R) :=
  ⟨Experiment.archive, fun e archive => { e with archive := archive }⟩

def sourceField : Field (Experiment R) Source :=
  ⟨Experiment.source, fun e source => { e with source := source }⟩

def choose (weights : List R) : Procedure (Experiment R) Nat := do
  let e ← get
  let (index, source) ← e.source.choose weights
  setField sourceField source
  return index

def measure (qubits memory registers : List Nat) : Procedure (Experiment R) Unit := do
  let e ← get
  let weights ← e.machine.outcomeProbabilities qubits
  let outcome ← choose weights
  inside machineField (Machine.InPlace.project qubits outcome (weights.getD outcome 0))
  inside classicalField (Classical.InPlace.record outcome memory registers)

def applyReadout (op : Instruction R) : Procedure (Experiment R) Unit := do
  let e ← get
  let current ← Classical.read e.machine.classical.memory op.memory
  match op.readout[current]? with
  | none =>
      refuse (.elementCount op.name (← checkedShift op.memory.length) op.readout.length)
  | some row => do
      let reported ← choose row
      inside classicalField (Classical.InPlace.record reported op.memory op.registers)

/-!
## Saves
-/

def save (kind : Kind) (key : String) (mode : SaveMode) (data : SavedData R) :
    Procedure (Experiment R) Unit := do
  let e ← get
  inside archiveField
    (Archive.InPlace.save e.machine.classical.memoryHex key kind.name mode data)

def readState (final : Bool) : Procedure (Experiment R) (Mat R) := do
  if final then
    inside machineField (inside Machine.InPlace.storeField Store.InPlace.take)
  else
    let e ← get
    e.machine.store.copy

def saveState (op : Instruction R) (final : Bool) : Procedure (Experiment R) Unit := do
  let e ← get
  let key ← e.checkState op
  let matrix ← readState final
  save .saveDensmat (if key = "_method_" then "density_matrix" else key)
    op.saveMode.promoted (.matrix matrix)

def reduced (qubits : List Nat) (final : Bool) : Procedure (Experiment R) (Mat R) := do
  let e ← get
  e.machine.requireWhole "save_densmat"
  if qubits.isEmpty then
    let t ← e.machine.store.trace
    return Mat.ofFn 1 1 fun _ _ => Amplitude.ofReal t
  else if !e.machine.isWholeRegister qubits then
    e.machine.partialTrace qubits
  else
    readState final

def saveDensmat (op : Instruction R) (final : Bool) : Procedure (Experiment R) Unit := do
  let key ← saveKey op
  let matrix ← reduced op.qubits final
  save op.kind key op.saveMode (.matrix matrix)

def saveProbs (op : Instruction R) : Procedure (Experiment R) Unit := do
  let e ← get
  let key ← saveKey op
  let weights ← e.machine.outcomeProbabilities op.qubits
  let data : SavedData R :=
    if op.kind = .saveProbsKet then .ket (ketOf e.machine.settings.chopThreshold weights)
    else .vector weights
  save op.kind key op.saveMode data

def saveAmpsSq (op : Instruction R) : Procedure (Experiment R) Unit := do
  let e ← get
  e.machine.requireWhole op.name
  let key ← saveKey op
  if op.indices.isEmpty then
    refuse (.missing op.name .basisIndices)
  else
    let dim ← checkedShift e.machine.width
    match op.indices.find? fun i => dim ≤ i with
    | some i => refuse (.elementCount s!"{op.name} index" dim i)
    | none =>
        let values ← (op.indices.mapM e.machine.store.probability : Outcome (List R))
        save op.kind key op.saveMode (.vector values)

def saveExpval (op : Instruction R) : Procedure (Experiment R) Unit := do
  let e ← get
  e.machine.requireWhole op.name
  let key ← saveKey op
  if op.terms.isEmpty then
    refuse (.missing op.name .pauliTerms)
  else
    let (mean, sqMean) ← expectations e.machine.store op.qubits op.terms
    let data : SavedData R :=
      if op.kind = .saveExpvalVar then .vector [mean, sqMean - mean * mean]
      else .scalar mean
    save op.kind key op.saveMode data

/-!
## Instructions
-/

def perform (op : Instruction R) (final : Bool) : Procedure (Experiment R) Unit :=
  match op.kind with
  | .barrier | .errorLocation | .mark | .jump => pure ()
  | .reset => inside machineField (Machine.InPlace.applyReset op.qubits)
  | .measure => measure op.qubits op.memory op.registers
  | .bfunc => inside classicalField (Classical.InPlace.applyBfunc op)
  | .readoutError => applyReadout op
  | .gate => inside machineField (Machine.InPlace.applyGate op)
  | .matrix =>
      match op.matrices with
      | [] => (refuse (.missing op.name .matrix) : Outcome Unit)
      | matrix :: _ => inside machineField (Machine.InPlace.applyMatrix op.qubits matrix)
  | .diagonal => inside machineField (Machine.InPlace.applyDiagonal op.qubits op.params)
  | .superop =>
      match op.matrices with
      | [] => (refuse (.missing op.name .superoperator) : Outcome Unit)
      | matrix :: _ => inside machineField (Machine.InPlace.applySuperop op.qubits matrix)
  | .kraus => inside machineField (Machine.InPlace.applyKraus op.qubits op.matrices)
  | .setStatevec => inside machineField (Machine.InPlace.setVector op)
  | .setDensmat => inside machineField (Machine.InPlace.setMatrix op)
  | .saveExpval | .saveExpvalVar => saveExpval op
  | .saveState => saveState op final
  | .saveDensmat => saveDensmat op final
  | .saveProbs | .saveProbsKet => saveProbs op
  | .saveAmpsSq => saveAmpsSq op
  | .prepare | .saveStatevec | .saveAmps | .setStabilizer =>
      (refuse (.invalidInstruction op.name) : Outcome Unit)

def apply (op : Instruction R) (final : Bool) : Procedure (Experiment R) Unit := do
  let e ← get
  if !e.machine.classical.allows op then
    pure ()
  else
    match op.qubits.find? fun q => e.machine.width ≤ q with
    | some qubit => refuse (.qubitOutOfRange op.name qubit e.machine.width)
    | none => perform op final

end Experiment.InPlace

end MixedState
