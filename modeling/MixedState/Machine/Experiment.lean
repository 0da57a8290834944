import MixedState.Machine.Reduced
import MixedState.Results.Archive

/-!
# Experiments

An experiment is a machine with the archive it saves to and the random source it
draws from.  An instruction that fails leaves an experiment too.
-/

namespace MixedState

structure Experiment (R : Type) where
  machine : Machine R
  archive : Archive R
  source : Source

/-- How a step ends, and the experiment that it leaves. -/
abbrev Step (R : Type) :=
  Outcome Unit × Experiment R

namespace Experiment

variable {R : Type} [Scalar R]

def evolve (e : Experiment R) (result : Outcome (Machine R)) : Step R :=
  match result with
  | .ok machine => (.ok (), { e with machine := machine })
  | .error fault => (.error fault, e)

def draw (e : Experiment R) (result : Outcome (Machine R × Source)) : Step R :=
  match result with
  | .ok (machine, source) => (.ok (), { e with machine := machine, source := source })
  | .error fault => (.error fault, e)

def file (e : Experiment R) (result : Outcome (Archive R)) : Step R :=
  match result with
  | .ok archive => (.ok (), { e with archive := archive })
  | .error fault => (.error fault, e)

def put (e : Experiment R) (kind : Kind) (key : String) (mode : SaveMode)
    (data : SavedData R) : Outcome (Archive R) :=
  e.archive.save e.machine.classical.memoryHex key kind.name mode data

def saveKey (op : Instruction R) : Outcome String :=
  match op.key? with
  | some key => .ok key
  | none => refuse (.missing op.name .saveKey)

def saveMatrix (e : Experiment R) (kind : Kind) (key : String) (mode : SaveMode)
    (read : Outcome (Mat R) × Machine R) : Step R :=
  let e := { e with machine := read.2 }
  e.file (read.1.bind fun matrix => e.put kind key mode (.matrix matrix))

def checkState (e : Experiment R) (op : Instruction R) : Outcome String := do
  e.machine.requireWhole op.name
  if op.qubits.length ≠ e.machine.width then
    refuse (.incompleteSave op.name)
  else
    saveKey op

/-- Saves the whole state; the latest value is promoted to the average. -/
def saveState (e : Experiment R) (op : Instruction R) (final : Bool) : Step R :=
  match e.checkState op with
  | .error fault => (.error fault, e)
  | .ok key =>
      let key := if key = "_method_" then "density_matrix" else key
      let read :=
        if final then
          let (matrix, store) := e.machine.store.take
          (matrix, { e.machine with store := store })
        else
          (e.machine.store.copy, e.machine)
      e.saveMatrix .saveDensmat key op.saveMode.promoted read

def saveDensmat (e : Experiment R) (op : Instruction R) (final : Bool) : Step R :=
  match saveKey op with
  | .error fault => (.error fault, e)
  | .ok key =>
      e.saveMatrix op.kind key op.saveMode (e.machine.reduced op.qubits final)

def ketOf (chop : R) (weights : List R) : KeyMap R :=
  KeyMap.ofList ((weights.zipIdx.filter fun (p, _) => Scalar.le chop (Scalar.abs p)).map
    fun (p, i) => (Hex.label i, p))

def saveProbs (e : Experiment R) (op : Instruction R) : Outcome (Archive R) := do
  let key ← saveKey op
  let weights ← e.machine.outcomeProbabilities op.qubits
  let data : SavedData R :=
    if op.kind = .saveProbsKet then .ket (ketOf e.machine.settings.chopThreshold weights)
    else .vector weights
  e.put op.kind key op.saveMode data

def saveAmpsSq (e : Experiment R) (op : Instruction R) : Outcome (Archive R) := do
  e.machine.requireWhole op.name
  let key ← saveKey op
  if op.indices.isEmpty then
    refuse (.missing op.name .basisIndices)
  else
    let dim ← checkedShift e.machine.width
    match op.indices.find? fun i => dim ≤ i with
    | some i => refuse (.elementCount s!"{op.name} index" dim i)
    | none =>
        let values ← op.indices.mapM e.machine.store.probability
        e.put op.kind key op.saveMode (.vector values)

def expectations (store : Store R) (qubits : List Nat) (terms : List (PauliTerm R)) :
    Outcome (R × R) :=
  terms.foldlM (fun (sum, sqSum) term => do
    let value ← store.expectation qubits term.pauli
    return (sum + term.coeff * value, sqSum + term.sqCoeff * value)) (0, 0)

def saveExpval (e : Experiment R) (op : Instruction R) : Outcome (Archive R) := do
  e.machine.requireWhole op.name
  let key ← saveKey op
  if op.terms.isEmpty then
    refuse (.missing op.name .pauliTerms)
  else
    let (mean, sqMean) ← expectations e.machine.store op.qubits op.terms
    let data : SavedData R :=
      if op.kind = .saveExpvalVar then .vector [mean, sqMean - mean * mean]
      else .scalar mean
    e.put op.kind key op.saveMode data

end Experiment

end MixedState
