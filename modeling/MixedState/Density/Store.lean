import MixedState.Density.Kernel

/-!
# The density matrix of a register

The density matrix `ρ` of `n` qubits is kept as one buffer, where entry
`r + c * 2 ^ n` is `ρ[r, c]`.  Bit `q` of the buffer index is the row bit of
qubit `q`, and bit `q + n` its column bit.  Of a register that is split, the
buffer holds one chunk.
-/

namespace MixedState

structure Store (R : Type) where
  qubits : Nat
  /-- The place of the chunk in a split register. -/
  chunk : Nat
  data : Buffer R

namespace Store

variable {R : Type} [Scalar R]

def entryCount (n : Nat) : Outcome Nat := do
  let count ← checkedShift (2 * n)
  allocate 16 count
  return count

/-- `|0…0⟩⟨0…0|`, which is zero on every chunk but the first. -/
def reset (s : Store R) : Outcome (Store R) := do
  let count ← entryCount s.qubits
  return { s with
    data := Buffer.tabulate count fun i => if i = 0 ∧ s.chunk = 0 then 1 else 0 }

def ofQubits (n : Nat) : Outcome (Store R) :=
  Store.reset ⟨n, 0, #[]⟩

def ofChunk (n chunk : Nat) (data : Buffer R) : Outcome (Store R) := do
  let count ← checkedShift (2 * n)
  if data.size = count then
    return ⟨n, chunk, data⟩
  else
    refuse (.elementCount "chunk" count data.size)

def resize (s : Store R) (n : Nat) : Outcome (Store R) := do
  let count ← entryCount n
  return { s with qubits := n, data := Buffer.tabulate count fun _ => 0 }

def dim (s : Store R) : Outcome Nat :=
  checkedShift s.qubits

/-- Loads a state vector or a vectorized density matrix, by its length. -/
def loadVector (s : Store R) (v : Buffer R) : Outcome (Store R) := do
  let dim ← s.dim
  let square ← checkedMul dim dim
  if v.size = dim then
    return { s with data := v.outer }
  else if v.size = square then
    return { s with data := v }
  else
    refuse (.elementCount "initialize" square v.size)

def loadMatrix (s : Store R) (m : Mat R) : Outcome (Store R) := do
  let dim ← s.dim
  if m.hasShape dim dim then
    return { s with data := m.columns }
  else
    refuse (.elementCount "initialize" (← checkedMul dim dim) m.size)

/-!
# Operators
-/

def transform (s : Store R) (kernel : Buffer R → Outcome (Buffer R)) :
    Outcome (Store R) := do
  return { s with data := ← kernel s.data }

def columnBits (s : Store R) (qubits : List Nat) : Outcome (List Nat) :=
  shiftPositions s.qubits qubits

def bothBits (s : Store R) (qubits : List Nat) : Outcome (List Nat) := do
  return qubits ++ (← s.columnBits qubits)

def applyUnitary (s : Store R) (qubits : List Nat) (columns : Buffer R) :
    Outcome (Store R) := do
  let rows ← s.transform (Kernel.dense qubits columns)
  rows.transform (Kernel.dense (← s.columnBits qubits) columns.conj)

def applyDiagonalUnitary (s : Store R) (qubits : List Nat) (entries : Buffer R) :
    Outcome (Store R) := do
  s.transform (Kernel.diagonal (← s.bothBits qubits) (entries.conj.tensor entries))

def applySuperop (s : Store R) (qubits : List Nat) (columns : Buffer R) :
    Outcome (Store R) := do
  s.transform (Kernel.dense (← s.bothBits qubits) columns)

def applyFlip (s : Store R) (qubits : List Nat) : Outcome (Store R) := do
  let columns ← s.columnBits qubits
  (← s.transform (Kernel.flip qubits)).transform (Kernel.flip columns)

def applyFlipY (s : Store R) (qubits : List Nat) : Outcome (Store R) := do
  let columns ← s.columnBits qubits
  (← s.transform (Kernel.flipY qubits false)).transform (Kernel.flipY columns true)

def applyPhase (s : Store R) (qubits : List Nat) (factor : Amplitude R) :
    Outcome (Store R) := do
  let columns ← s.columnBits qubits
  (← s.transform (Kernel.phase qubits factor)).transform (Kernel.phase columns factor.conj)

def applySwap (s : Store R) (p q : Nat) : Outcome (Store R) := do
  let rows ← s.transform (Kernel.exchange p q)
  match ← s.columnBits [p, q] with
  | [p, q] => rows.transform (Kernel.exchange p q)
  | _ => return rows

def applyReset (s : Store R) (qubits : List Nat) : Outcome (Store R) := do
  s.applySuperop qubits (← resetMap qubits.length)

/-!
# Readouts
-/

def probability (s : Store R) (i : Nat) : Outcome R := do
  let dim ← s.dim
  let place := i * (dim + 1)
  orCrash (place < s.data.size)
  return (s.data.entry place).re

def probabilities (s : Store R) : Outcome (List R) := do
  let dim ← s.dim
  orCrash (dim * dim ≤ s.data.size)
  return (List.range dim).map fun i => (s.data.entry (i * (dim + 1))).re

def trace (s : Store R) : Outcome R := do
  return (← s.probabilities).foldl (· + ·) 0

def expectation (s : Store R) (qubits : List Nat) (string : String) : Outcome R := do
  let masks ← PauliMasks.ofString qubits string
  let dim ← s.dim
  orCrash (masks.x < dim && dim * dim ≤ s.data.size)
  return sumBelow dim fun i =>
    (masks.phase i * s.data.entry (i + (i ^^^ masks.x) * dim)).re

def copy (s : Store R) : Outcome (Mat R) := do
  let dim ← s.dim
  Mat.ofColumns dim s.data

def take (s : Store R) : Outcome (Mat R) × Store R :=
  let matrix := do
    let dim ← s.dim
    if s.data.size = dim * dim then
      Mat.ofColumns dim s.data
    else
      refuse (.elementCount "save_state" (← checkedMul dim dim) s.data.size)
  (matrix, { s with data := #[] })

end Store
end MixedState
