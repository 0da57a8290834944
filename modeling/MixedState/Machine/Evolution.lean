import MixedState.Gate.Unitary
import MixedState.Machine.State

/-!
# Gates and channels

Unitaries, channels and new states.  A named gate is routed when the store holds a chunk.
-/

namespace MixedState
namespace Machine

variable {R : Type} [Scalar R]

/-- `ρ ↦ D ρ D†` for a diagonal `D`.  On a chunk, the diagonal is restricted to the
global row bits and to the global column bits. -/
def applyDiagonal (m : Machine R) (qubits : List Nat) (entries : Buffer R) :
    Outcome (Machine R) := do
  let dim ← checkedShift qubits.length
  if entries.size ≠ dim then
    refuse (.elementCount "diagonal_matrix" dim entries.size)
  else if !m.isSplit || qubits.all m.place.isLocal then
    m.update fun store => store.applyDiagonalUnitary qubits entries
  else
    let width := m.store.qubits
    let (inside, rows) ← restrictDiagonal (← m.place.rowBits) width qubits entries
    let (_, columns) ← restrictDiagonal (← m.place.columnBits) width qubits entries
    let bits ← m.store.bothBits inside
    m.update fun store => store.transform (Kernel.diagonal bits (columns.conj.tensor rows))

def applyMatrix (m : Machine R) (qubits : List Nat) (u : Mat R) : Outcome (Machine R) := do
  let dim ← checkedShift qubits.length
  if u.rows = 1 then
    m.applyDiagonal qubits u.entries
  else if !u.hasShape dim dim then
    refuse (.elementCount "matrix" (← checkedMul dim dim) u.size)
  else
    m.requireLocal "matrix" qubits
    m.update fun store => store.applyUnitary qubits u.columns

def applySuperop (m : Machine R) (qubits : List Nat) (map : Mat R) :
    Outcome (Machine R) := do
  let dim ← checkedShift (2 * qubits.length)
  if !map.hasShape dim dim then
    refuse (.elementCount "superop" (← checkedMul dim dim) map.size)
  else
    m.requireLocal "superop" qubits
    m.update fun store => store.applySuperop qubits map.columns

def applyKraus (m : Machine R) (qubits : List Nat) (operators : List (Mat R)) :
    Outcome (Machine R) :=
  if operators.isEmpty then
    refuse (.missing "kraus" .krausOperators)
  else do
    let dim ← checkedShift qubits.length
    match operators.find? fun k => !k.hasShape dim dim with
    | some k => refuse (.elementCount "kraus" (← checkedMul dim dim) k.size)
    | none => m.applySuperop qubits (← krausMap operators)

def applyReset (m : Machine R) (qubits : List Nat) : Outcome (Machine R) := do
  m.requireLocal "reset" qubits
  m.update fun store => store.applyReset qubits

/-!
# Named gates
-/

def phaseParam (op : Instruction R) : Amplitude R :=
  match op.params[0]? with
  | some angle => (Amplitude.unit * angle).exp
  | none => 1

def applyPhase (m : Machine R) (qubit : Nat) (factor : Amplitude R) : Outcome (Machine R) :=
  m.applyDiagonal [qubit] #[1, factor]

def applyPauli (m : Machine R) (op : Instruction R) : Outcome (Machine R) :=
  match op.texts with
  | [] => refuse (.missing op.name .pauliString)
  | string :: _ => do
      let bits ← m.store.bothBits op.qubits
      let countY := (string.toList.filter fun c => c == 'Y').length
      let sign : Amplitude R := if countY % 2 = 0 then 1 else -1
      m.update fun store => store.transform (Kernel.pauli bits (string ++ string) sign)

def applyLocal (m : Machine R) (op : Instruction R) (gate : Gate) : Outcome (Machine R) :=
  let qubits := op.qubits
  let param (i : Nat) : R := (op.realParam? i).getD 0
  let eighth : R := Scalar.pi / Scalar.ofNat 4
  let withQubit (f : Nat → Outcome (Machine R)) : Outcome (Machine R) :=
    match qubits with
    | q :: _ => f q
    | [] => crash
  let withPair (f : Nat → Nat → Outcome (Machine R)) : Outcome (Machine R) :=
    match qubits with
    | p :: q :: _ => f p q
    | _ => crash
  match gate with
  | .id => .ok m
  | .x => withQubit fun q => m.update fun store => store.applyFlip [q]
  | .y => withQubit fun q => m.update fun store => store.applyFlipY [q]
  | .z => withQubit fun q => m.applyPhase q (-1)
  | .s => withQubit fun q => m.applyPhase q ⟨0, 1⟩
  | .sdg => withQubit fun q => m.applyPhase q ⟨0, -1⟩
  | .t => withQubit fun q => m.applyPhase q (Amplitude.polar 1 eighth)
  | .tdg => withQubit fun q => m.applyPhase q (Amplitude.polar 1 (-eighth))
  | .u1 => withQubit fun q => m.applyPhase q (phaseParam op)
  | .h => m.applyMatrix qubits Unitary.h
  | .u2 => m.applyMatrix qubits (Unitary.u2 (param 0) (param 1))
  | .u3 => m.applyMatrix qubits (Unitary.u3 (param 0) (param 1) (param 2))
  | .sx => m.applyMatrix qubits Unitary.sx
  | .sxdg => m.applyMatrix qubits Unitary.sxdg
  | .r => m.applyMatrix qubits (Unitary.r (param 0) (param 1))
  | .rx => m.applyMatrix qubits (Unitary.rx (param 0))
  | .ry => m.applyMatrix qubits (Unitary.ry (param 0))
  | .rxx => m.applyMatrix qubits (Unitary.rxx (param 0))
  | .ryy => m.applyMatrix qubits (Unitary.ryy (param 0))
  | .rzx => m.applyMatrix qubits (Unitary.rzx (param 0))
  | .ecr => m.applyMatrix qubits Unitary.ecr
  | .rz => m.applyDiagonal qubits (Unitary.rzDiagonal (param 0))
  | .rzz => m.applyDiagonal qubits (Unitary.rzzDiagonal (param 0))
  | .cx => withPair fun p q => m.update fun store => store.applyFlip [p, q]
  | .cy => withPair fun p q => m.update fun store => store.applyFlipY [p, q]
  | .cz => withPair fun p q => m.update fun store => store.applyPhase [p, q] (-1)
  | .cp => withPair fun p q => m.update fun store => store.applyPhase [p, q] (phaseParam op)
  | .swap => withPair fun p q => m.update fun store => store.applySwap p q
  | .ccx =>
      match qubits with
      | p :: q :: t :: _ => m.update fun store => store.applyFlip [p, q, t]
      | _ => crash
  | .pauli => m.applyPauli op

/-- What routing leaves of a gate, on the rows or on the columns of a chunk. -/
def applyOneSide (m : Machine R) (op : Instruction R) (onColumns : Bool) :
    Outcome (Machine R) := do
  let gate ← Gate.ofName op.name
  let bits ← shiftPositions (if onColumns then m.store.qubits else 0) op.qubits
  let kernel (f : Buffer R → Outcome (Buffer R)) : Outcome (Machine R) :=
    m.update fun store => store.transform f
  match gate with
  | .x | .cx | .ccx => kernel (Kernel.flip bits)
  | .y | .cy => kernel (Kernel.flipY bits onColumns)
  | .z | .cz => kernel (Kernel.phase bits (-1))
  | .u1 | .cp =>
      let factor := phaseParam op
      kernel (Kernel.phase bits (if onColumns then factor.conj else factor))
  | other => refuse (.invalidInstruction other.name)

def checkGate (op : Instruction R) (gate : Gate) : Outcome Unit :=
  let fits := match gate.width with
    | some n => op.qubits.length == n
    | none => true
  if !fits then
    refuse (.gateWidth op.name (gate.width.getD 0) op.qubits.length)
  else if op.params.size < gate.paramCount then
    refuse (.missing op.name .gateParameters)
  else
    .ok ()

def diagonalString? (op : Instruction R) (gate : Gate) : Option String :=
  match gate, op.texts with
  | .pauli, string :: _ =>
      if string.utf8ByteSize = op.qubits.length ∧ isDiagonalPauli string then some string
      else none
  | _, _ => none

def applyRouted (m : Machine R) (op : Instruction R) (gate : Gate) :
    Outcome (Machine R) :=
  match diagonalString? op gate with
  | some string => do
      m.applyDiagonal op.qubits (← pauliDiagonal op.qubits.length string)
  | none => do
      match ← route op gate m.place with
      | .direct => m.applyLocal op gate
      | .skip => return m
      | .both reduced => m.applyLocal reduced (← Gate.ofName reduced.name)
      | .rows reduced => m.applyOneSide reduced false
      | .columns reduced => m.applyOneSide reduced true

def applyGate (m : Machine R) (op : Instruction R) : Outcome (Machine R) := do
  let gate ← Gate.ofName op.name
  checkGate op gate
  if m.isSplit then m.applyRouted op gate else m.applyLocal op gate

/-!
# Loading states
-/

def requireAllQubits (m : Machine R) (op : Instruction R) : Outcome Unit := do
  m.requireWhole op.name
  if op.qubits.length ≠ m.width then
    refuse (.registerWidth m.width op.qubits.length)
  else
    .ok ()

def setVector (m : Machine R) (op : Instruction R) : Outcome (Machine R) := do
  m.requireAllQubits op
  let dim ← checkedShift m.width
  if op.params.size ≠ dim then
    refuse (.elementCount op.name dim op.params.size)
  else
    m.update fun store => store.loadVector op.params

def setMatrix (m : Machine R) (op : Instruction R) : Outcome (Machine R) := do
  m.requireAllQubits op
  match op.matrices with
  | [] => refuse (.missing op.name .densityMatrix)
  | matrix :: _ => m.update fun store => store.loadMatrix matrix

end Machine
end MixedState
