import MixedState.Machine.Evolution

/-!
# Measurement

An outcome is drawn by its probability, the state is projected onto it, and its bits are
recorded.  Samples leave the state as it is.
-/

namespace MixedState
namespace Machine

variable {R : Type} [Scalar R]

def isWholeRegister (m : Machine R) (qubits : List Nat) : Bool :=
  qubits == List.range m.width

def outcomeWeight (qubits : List Nat) (weights : List R) (outcome : Nat) : R :=
  (weights.zipIdx.filter fun (_, i) => Basis.gather qubits i == outcome).foldl
    (fun sum (p, _) => sum + p) 0

def outcomeProbabilities (m : Machine R) (qubits : List Nat) : Outcome (List R) := do
  m.requireWhole "measure"
  let weights ← m.store.probabilities
  if m.isWholeRegister qubits then
    return weights
  else
    let count ← checkedShift qubits.length
    allocate 8 count
    Basis.Checked.addressable qubits
    return (List.range count).map (outcomeWeight qubits weights)

def drawOutcome (m : Machine R) (qubits : List Nat) (source : Source) :
    Outcome ((Nat × R) × Source) := do
  let weights ← m.outcomeProbabilities qubits
  let (outcome, source) ← source.choose weights
  return ((outcome, weights.getD outcome 0), source)

def project (m : Machine R) (qubits : List Nat) (outcome : Nat) (probability : R) :
    Outcome (Machine R) := do
  let dim ← checkedShift qubits.length
  allocate 16 dim
  orCrash (outcome < dim)
  let scale := Amplitude.ofReal (1 / Scalar.sqrt probability)
  m.applyDiagonal qubits (Buffer.tabulate dim fun i => if i = outcome then scale else 0)

def exchangeMatrix (dim a b : Nat) : Mat R :=
  Mat.ofFn dim dim fun r c =>
    let image := if c = a then b else if c = b then a else c
    if r = image then 1 else 0

def exchangeOutcomes (m : Machine R) (qubits : List Nat) (final outcome : Nat) :
    Outcome (Machine R) :=
  if final = outcome then .ok m
  else
    match qubits with
    | [q] => m.update fun store => store.applyFlip [q]
    | _ => do
        let dim ← checkedShift qubits.length
        allocate 16 (dim * dim)
        orCrash (final < dim && outcome < dim)
        m.applyMatrix qubits (exchangeMatrix dim outcome final)

/-- Projects the qubits onto an outcome and then moves them to `final`.  What is
left when the second part is refused is the projection. -/
def collapse (m : Machine R) (qubits : List Nat) (final outcome : Nat)
    (probability : R) : Outcome Unit × Machine R :=
  match m.project qubits outcome probability with
  | .error fault => (.error fault, m)
  | .ok projected =>
      match projected.exchangeOutcomes qubits final outcome with
      | .error fault => (.error fault, projected)
      | .ok moved => (.ok (), moved)

def measure (m : Machine R) (qubits memory registers : List Nat) (source : Source) :
    Outcome (Machine R × Source) := do
  let ((outcome, probability), source) ← m.drawOutcome qubits source
  let projected ← m.project qubits outcome probability
  let classical ← projected.classical.record outcome memory registers
  return ({ projected with classical := classical }, source)

def sample (m : Machine R) (qubits : List Nat) (shots : Nat) (source : Source) :
    Outcome (List Nat × Source) := do
  m.requireWhole "sample_measure"
  allocate 8 shots
  let (variates, source) := source.variates shots
  let places ← m.store.sample (variates.map unitFraction)
  let outcomes ← places.mapM (Basis.Checked.gather qubits)
  return (outcomes, source)

end Machine
end MixedState
