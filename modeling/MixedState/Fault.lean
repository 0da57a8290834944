import MixedState.Power

/-!
# Faults

An operation ends with a value, is refused for a stated cause, or crashes: it
would shift a word past its width, read outside a buffer, overflow a size or
need an impossible amount of memory.
-/

namespace MixedState

inductive Part where
  | gateParameters
  | pauliString
  | matrix
  | superoperator
  | krausOperators
  | densityMatrix
  | maskAndTarget
  | relation
  | register
  | saveKey
  | basisIndices
  | pauliTerms
  deriving DecidableEq, Repr

def Part.text : Part → String
  | .gateParameters => "gate parameters"
  | .pauliString => "Pauli string"
  | .matrix => "matrix"
  | .superoperator => "superoperator matrix"
  | .krausOperators => "Kraus operators"
  | .densityMatrix => "density matrix"
  | .maskAndTarget => "mask and target"
  | .relation => "relation"
  | .register => "register"
  | .saveKey => "save key"
  | .basisIndices => "basis state indices"
  | .pauliTerms => "Pauli terms"

inductive NoDraw where
  | empty
  | allZero
  deriving DecidableEq, Repr

def NoDraw.text : NoDraw → String
  | .empty => "No weights provided in distribution"
  | .allZero => "All weights are zero in distribution"

inductive Refusal where
  | unknownGate (name : String)
  | gateWidth (name : String) (expected got : Nat)
  | matrixShape (name : String) (expected rows cols : Nat)
  | notAChannel (model : String)
  | invalidInstruction (what : String)
  | registerWidth (expected got : Nat)
  | incompleteSave (name : String)
  | qubitOutOfRange (name : String) (qubit width : Nat)
  | globalQubit (name : String) (qubit : Nat)
  | chunkedState (name : String)
  | missing (name : String) (part : Part)
  | elementCount (what : String) (expected got : Nat)
  | noDraw (cause : NoDraw)
  deriving DecidableEq, Repr

def Refusal.message : Refusal → String
  | .unknownGate name => s!"invalid gate instruction '{name}'"
  | .gateWidth name expected got =>
      s!"Gate '{name}' requires {expected} qubits, got {got}"
  | .matrixShape name expected rows cols =>
      s!"Matrix for '{name}' must be {expected}x{expected}, got {rows}x{cols}"
  | .notAChannel model => s!"Noise model '{model}' has no Kraus representation"
  | .invalidInstruction what =>
      s!"DensityMatrix::State::invalid instruction '{what}'"
  | .registerWidth expected got =>
      s!"initial state does not match qubit number: expected {expected}, got {got}"
  | .incompleteSave name =>
      s!"{name} was not applied to all qubits. Only the full state can be saved."
  | .qubitOutOfRange name qubit width =>
      s!"'{name}' acts on qubit {qubit}, but the register has {width} qubits"
  | .globalQubit name qubit =>
      s!"'{name}' acts on global qubit {qubit}, which is outside this chunk"
  | .chunkedState name =>
      s!"'{name}' requires the full register but the state holds a single chunk"
  | .missing name part => s!"Invalid {name} instruction: missing {part.text}"
  | .elementCount what expected got =>
      s!"'{what}' expects {expected} elements, got {got}"
  | .noDraw cause => s!"Invalid sampling distribution: {cause.text}"

inductive Fault where
  | refused (cause : Refusal)
  | crash
  deriving DecidableEq, Repr

abbrev Outcome (α : Type) :=
  Except Fault α

def refuse {α : Type} (cause : Refusal) : Outcome α :=
  .error (.refused cause)

def crash {α : Type} : Outcome α :=
  .error .crash

def orCrash (condition : Bool) : Outcome Unit :=
  if condition then .ok () else crash

/-!
# Words and buffers
-/

def wordBits : Nat :=
  64

def wordSize : Nat :=
  18446744073709551616

/-- No buffer has this many bytes or more. -/
def bufferLimit : Nat :=
  9223372036854775808

def checkedShift (amount : Nat) : Outcome Nat :=
  if amount < wordBits then .ok (twoPow amount) else crash

def checkedMul (a b : Nat) : Outcome Nat :=
  if a * b < wordSize then .ok (a * b) else crash

/-- `n` cells of `bytes` bytes each: crashes unless a buffer can hold them. -/
def allocate (bytes n : Nat) : Outcome Unit :=
  orCrash (n * bytes < bufferLimit)

def shiftPositions (shift : Nat) (positions : List Nat) : Outcome (List Nat) :=
  if positions.all fun q => q + shift < wordSize then
    .ok (positions.map fun q => q + shift)
  else
    crash

theorem orCrash_eq_ok_iff {condition : Bool} : orCrash condition = .ok () ↔ condition = true := by
  cases condition <;> simp [orCrash, crash]

theorem checkedShift_eq_ok_iff {amount n : Nat} :
    checkedShift amount = .ok n ↔ amount < wordBits ∧ twoPow amount = n := by
  by_cases h : amount < wordBits <;> simp [checkedShift, crash, h]

theorem checkedMul_eq_ok_iff {a b n : Nat} :
    checkedMul a b = .ok n ↔ a * b < wordSize ∧ a * b = n := by
  by_cases h : a * b < wordSize <;> simp [checkedMul, crash, h]

end MixedState
