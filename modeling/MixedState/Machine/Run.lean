import MixedState.Machine.Experiment

/-!
# Running instructions

An instruction is skipped when its condition is not met.  A list of them ends at the first that
fails.
-/

namespace MixedState
namespace Experiment

variable {R : Type} [Scalar R]

def perform (e : Experiment R) (op : Instruction R) (final : Bool) : Step R :=
  let m := e.machine
  match op.kind with
  | .barrier | .errorLocation | .mark | .jump => (.ok (), e)
  | .reset => e.evolve (m.applyReset op.qubits)
  | .measure => e.draw (m.measure op.qubits op.memory op.registers e.source)
  | .bfunc =>
      e.evolve ((m.classical.applyBfunc op).map fun bits => { m with classical := bits })
  | .readoutError =>
      e.draw ((m.classical.applyReadout op e.source).map fun (bits, source) =>
        ({ m with classical := bits }, source))
  | .gate => e.evolve (m.applyGate op)
  | .matrix =>
      match op.matrices with
      | [] => (refuse (.missing op.name .matrix), e)
      | matrix :: _ => e.evolve (m.applyMatrix op.qubits matrix)
  | .diagonal => e.evolve (m.applyDiagonal op.qubits op.params)
  | .superop =>
      match op.matrices with
      | [] => (refuse (.missing op.name .superoperator), e)
      | matrix :: _ => e.evolve (m.applySuperop op.qubits matrix)
  | .kraus => e.evolve (m.applyKraus op.qubits op.matrices)
  | .setStatevec => e.evolve (m.setVector op)
  | .setDensmat => e.evolve (m.setMatrix op)
  | .saveExpval | .saveExpvalVar => e.file (e.saveExpval op)
  | .saveState => e.saveState op final
  | .saveDensmat => e.saveDensmat op final
  | .saveProbs | .saveProbsKet => e.file (e.saveProbs op)
  | .saveAmpsSq => e.file (e.saveAmpsSq op)
  | .prepare | .saveStatevec | .saveAmps | .setStabilizer =>
      (refuse (.invalidInstruction op.name), e)

/-- Runs an instruction, unless its condition is not met.  `final` lets a save take
the state out instead of copying it. -/
def apply (e : Experiment R) (op : Instruction R) (final : Bool) : Step R :=
  if !e.machine.classical.allows op then
    (.ok (), e)
  else
    match op.qubits.find? fun q => e.machine.width ≤ q with
    | some qubit => (refuse (.qubitOutOfRange op.name qubit e.machine.width), e)
    | none => e.perform op final

def applyAll (e : Experiment R) (ops : List (Instruction R)) (final : Bool) : Step R :=
  match ops with
  | [] => (.ok (), e)
  | op :: rest =>
      match e.apply op (final && rest.isEmpty) with
      | (.ok (), e) => e.applyAll rest final
      | failed => failed

end Experiment
end MixedState
