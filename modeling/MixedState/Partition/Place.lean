import MixedState.Basis.Bits
import MixedState.Matrix

/-!
# Chunks of a register

A register of `N` qubits can be split into chunks of `L` qubits.  Qubit `q ≥ L` is
global: its row bit is bit `q - L` of the chunk index, and its column bit is bit
`q - L + (N - L)`.
-/

namespace MixedState

structure Place where
  /-- Qubits of the whole register. -/
  register : Nat
  /-- Qubits of a chunk. -/
  width : Nat
  index : Nat
  deriving DecidableEq, Repr

namespace Place

def isSplit (place : Place) : Bool :=
  place.width < place.register

def globalCount (place : Place) : Nat :=
  place.register - place.width

def chunkCount (place : Place) : Outcome Nat :=
  checkedShift (2 * place.globalCount)

def rowBits (place : Place) : Outcome Nat := do
  return place.index % (← checkedShift place.globalCount)

def columnBits (place : Place) : Outcome Nat := do
  return place.index / (← checkedShift place.globalCount)

def isLocal (place : Place) (qubit : Nat) : Bool :=
  qubit < place.width

end Place

variable {R : Type} [Scalar R]

/-- The entry of the whole register that entry `i` of a chunk is, where `rows` and
`columns` are the global bits. -/
def chunkEntry (place : Place) (rows columns i : Nat) : Nat :=
  let base (bits : Nat) : Nat := (bits <<< place.width) % wordSize
  let row := i % twoPow place.width ||| base rows
  let column := i / twoPow place.width ||| base columns
  row + column * twoPow place.register

def extractChunk (full : Buffer R) (place : Place) : Outcome (Buffer R) := do
  let dim ← checkedShift place.width
  let _ ← checkedShift place.register
  let rows ← place.rowBits
  let columns ← place.columnBits
  let count ← checkedMul dim dim
  orCrash (chunkEntry place rows columns (count - 1) < full.size)
  return Buffer.tabulate count fun i => full.entry (chunkEntry place rows columns i)

def globalMask (width : Nat) (positions : List Nat) : Nat :=
  match positions with
  | [] => 0
  | q :: rest => (!(decide (q < width))).toNat + 2 * globalMask width rest

/-- The number that spells the global bits at the listed positions, and is zero at
local ones. -/
def globalChoice (bits width : Nat) (positions : List Nat) : Nat :=
  match positions with
  | [] => 0
  | q :: rest =>
      (!(decide (q < width)) && bits.testBit (q - width)).toNat
        + 2 * globalChoice bits width rest

def restrictable (width : Nat) (positions : List Nat) : Bool :=
  positions.zipIdx.all fun (q, j) => q < width || (j < wordBits && q - width < wordBits)

/-- The local positions, and the entries of a diagonal that the global bits
select.  Without a local position, the one selected entry stands for both values of
position `0`. -/
def restrictDiagonal (bits width : Nat) (positions : List Nat) (entries : Buffer R) :
    Outcome (List Nat × Buffer R) := do
  orCrash (restrictable width positions)
  let localPositions := positions.filter fun q => q < width
  let mask := globalMask width positions
  let choice := globalChoice bits width positions
  let selected := (entries.toList.zipIdx.filter fun (_, i) => i &&& mask == choice).map
    Prod.fst
  match localPositions with
  | [] =>
      let entry := selected.headD 1
      return ([0], #[entry, entry])
  | _ => return (localPositions, selected.toArray)

end MixedState
