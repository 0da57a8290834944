import MixedState.InPlace.Procedure
import MixedState.Machine.Measurement

/-!
# Operators in place

The operators of a store and of a machine as procedures, which write to the buffer one
kernel after the other.
-/

namespace MixedState

open Procedure

variable {R : Type} [Scalar R]

namespace Store.InPlace

def run (kernel : Buffer R → Outcome (Buffer R)) : Procedure (Store R) Unit := do
  let store ← get
  let data ← kernel store.data
  set { store with data := data }

def onSides (qubits : List Nat)
    (kernel : Bool → List Nat → Buffer R → Outcome (Buffer R)) :
    Procedure (Store R) Unit := do
  run (kernel false qubits)
  let store ← get
  let columns ← store.columnBits qubits
  run (kernel true columns)

def applyUnitary (qubits : List Nat) (columns : Buffer R) : Procedure (Store R) Unit :=
  onSides qubits fun onColumns bits =>
    Kernel.dense bits (if onColumns then columns.conj else columns)

def applyDiagonalUnitary (qubits : List Nat) (entries : Buffer R) :
    Procedure (Store R) Unit := do
  let store ← get
  let bits ← store.bothBits qubits
  run (Kernel.diagonal bits (entries.conj.tensor entries))

def applySuperop (qubits : List Nat) (columns : Buffer R) : Procedure (Store R) Unit := do
  let store ← get
  let bits ← store.bothBits qubits
  run (Kernel.dense bits columns)

def applyFlip (qubits : List Nat) : Procedure (Store R) Unit :=
  onSides qubits fun _ bits => Kernel.flip bits

def applyFlipY (qubits : List Nat) : Procedure (Store R) Unit :=
  onSides qubits fun onColumns bits => Kernel.flipY bits onColumns

def applyPhase (qubits : List Nat) (factor : Amplitude R) : Procedure (Store R) Unit :=
  onSides qubits fun onColumns bits =>
    Kernel.phase bits (if onColumns then factor.conj else factor)

def exchangeTwo (bits : List Nat) (b : Buffer R) : Outcome (Buffer R) :=
  match bits with
  | [p, q] => Kernel.exchange p q b
  | _ => .ok b

def applySwap (p q : Nat) : Procedure (Store R) Unit :=
  onSides [p, q] fun _ bits => exchangeTwo bits

def applyReset (qubits : List Nat) : Procedure (Store R) Unit := do
  let columns ← resetMap qubits.length
  applySuperop qubits columns

end Store.InPlace

namespace Machine.InPlace

def storeField : Field (Machine R) (Store R) :=
  ⟨Machine.store, fun m store => { m with store := store }⟩

def onStore (p : Procedure (Store R) Unit) : Procedure (Machine R) Unit :=
  inside storeField p

def applyDiagonal (qubits : List Nat) (entries : Buffer R) :
    Procedure (Machine R) Unit := do
  let m ← get
  let dim ← checkedShift qubits.length
  if entries.size ≠ dim then
    refuse (.elementCount "diagonal_matrix" dim entries.size)
  else if !m.isSplit || qubits.all m.place.isLocal then
    onStore (Store.InPlace.applyDiagonalUnitary qubits entries)
  else
    let width := m.store.qubits
    let (inside, rows) ← restrictDiagonal (← m.place.rowBits) width qubits entries
    let (_, columns) ← restrictDiagonal (← m.place.columnBits) width qubits entries
    let bits ← m.store.bothBits inside
    onStore (Store.InPlace.run (Kernel.diagonal bits (columns.conj.tensor rows)))

def applyMatrix (qubits : List Nat) (u : Mat R) : Procedure (Machine R) Unit := do
  let dim ← checkedShift qubits.length
  if u.rows = 1 then
    applyDiagonal qubits u.entries
  else if !u.hasShape dim dim then
    refuse (.elementCount "matrix" (← checkedMul dim dim) u.size)
  else
    let m ← get
    m.requireLocal "matrix" qubits
    onStore (Store.InPlace.applyUnitary qubits u.columns)

def applySuperop (qubits : List Nat) (map : Mat R) : Procedure (Machine R) Unit := do
  let dim ← checkedShift (2 * qubits.length)
  if !map.hasShape dim dim then
    refuse (.elementCount "superop" (← checkedMul dim dim) map.size)
  else
    let m ← get
    m.requireLocal "superop" qubits
    onStore (Store.InPlace.applySuperop qubits map.columns)

def applyKraus (qubits : List Nat) (operators : List (Mat R)) :
    Procedure (Machine R) Unit :=
  if operators.isEmpty then
    (refuse (.missing "kraus" .krausOperators) : Outcome Unit)
  else do
    let dim ← checkedShift qubits.length
    match operators.find? fun k => !k.hasShape dim dim with
    | some k => refuse (.elementCount "kraus" (← checkedMul dim dim) k.size)
    | none =>
        let map ← krausMap operators
        applySuperop qubits map

def applyReset (qubits : List Nat) : Procedure (Machine R) Unit := do
  let m ← get
  m.requireLocal "reset" qubits
  onStore (Store.InPlace.applyReset qubits)

def applyPhase (qubit : Nat) (factor : Amplitude R) : Procedure (Machine R) Unit :=
  applyDiagonal [qubit] #[1, factor]

def applyPauli (op : Instruction R) : Procedure (Machine R) Unit :=
  match op.texts with
  | [] => (refuse (.missing op.name .pauliString) : Outcome Unit)
  | string :: _ => do
      let m ← get
      let bits ← m.store.bothBits op.qubits
      let countY := (string.toList.filter fun c => c == 'Y').length
      let sign : Amplitude R := if countY % 2 = 0 then 1 else -1
      onStore (Store.InPlace.run (Kernel.pauli bits (string ++ string) sign))

def applyLocal (op : Instruction R) (gate : Gate) : Procedure (Machine R) Unit :=
  let qubits := op.qubits
  let param (i : Nat) : R := (op.realParam? i).getD 0
  let eighth : R := Scalar.pi / Scalar.ofNat 4
  let withQubit (f : Nat → Procedure (Machine R) Unit) : Procedure (Machine R) Unit :=
    match qubits with
    | q :: _ => f q
    | [] => (crash : Outcome Unit)
  let withPair (f : Nat → Nat → Procedure (Machine R) Unit) : Procedure (Machine R) Unit :=
    match qubits with
    | p :: q :: _ => f p q
    | _ => (crash : Outcome Unit)
  match gate with
  | .id => pure ()
  | .x => withQubit fun q => onStore (Store.InPlace.applyFlip [q])
  | .y => withQubit fun q => onStore (Store.InPlace.applyFlipY [q])
  | .z => withQubit fun q => applyPhase q (-1)
  | .s => withQubit fun q => applyPhase q ⟨0, 1⟩
  | .sdg => withQubit fun q => applyPhase q ⟨0, -1⟩
  | .t => withQubit fun q => applyPhase q (Amplitude.polar 1 eighth)
  | .tdg => withQubit fun q => applyPhase q (Amplitude.polar 1 (-eighth))
  | .u1 => withQubit fun q => applyPhase q (phaseParam op)
  | .h => applyMatrix qubits Unitary.h
  | .u2 => applyMatrix qubits (Unitary.u2 (param 0) (param 1))
  | .u3 => applyMatrix qubits (Unitary.u3 (param 0) (param 1) (param 2))
  | .sx => applyMatrix qubits Unitary.sx
  | .sxdg => applyMatrix qubits Unitary.sxdg
  | .r => applyMatrix qubits (Unitary.r (param 0) (param 1))
  | .rx => applyMatrix qubits (Unitary.rx (param 0))
  | .ry => applyMatrix qubits (Unitary.ry (param 0))
  | .rxx => applyMatrix qubits (Unitary.rxx (param 0))
  | .ryy => applyMatrix qubits (Unitary.ryy (param 0))
  | .rzx => applyMatrix qubits (Unitary.rzx (param 0))
  | .ecr => applyMatrix qubits Unitary.ecr
  | .rz => applyDiagonal qubits (Unitary.rzDiagonal (param 0))
  | .rzz => applyDiagonal qubits (Unitary.rzzDiagonal (param 0))
  | .cx => withPair fun p q => onStore (Store.InPlace.applyFlip [p, q])
  | .cy => withPair fun p q => onStore (Store.InPlace.applyFlipY [p, q])
  | .cz => withPair fun p q => onStore (Store.InPlace.applyPhase [p, q] (-1))
  | .cp => withPair fun p q => onStore (Store.InPlace.applyPhase [p, q] (phaseParam op))
  | .swap => withPair fun p q => onStore (Store.InPlace.applySwap p q)
  | .ccx =>
      match qubits with
      | p :: q :: t :: _ => onStore (Store.InPlace.applyFlip [p, q, t])
      | _ => (crash : Outcome Unit)
  | .pauli => applyPauli op

def applyOneSide (op : Instruction R) (onColumns : Bool) : Procedure (Machine R) Unit := do
  let m ← get
  let gate ← Gate.ofName op.name
  let bits ← shiftPositions (if onColumns then m.store.qubits else 0) op.qubits
  let kernel (f : Buffer R → Outcome (Buffer R)) : Procedure (Machine R) Unit :=
    onStore (Store.InPlace.run f)
  match gate with
  | .x | .cx | .ccx => kernel (Kernel.flip bits)
  | .y | .cy => kernel (Kernel.flipY bits onColumns)
  | .z | .cz => kernel (Kernel.phase bits (-1))
  | .u1 | .cp =>
      let factor := phaseParam op
      kernel (Kernel.phase bits (if onColumns then factor.conj else factor))
  | other => refuse (.invalidInstruction other.name)

def applyRouted (op : Instruction R) (gate : Gate) : Procedure (Machine R) Unit := do
  let m ← get
  match diagonalString? op gate with
  | some string => do
      let entries ← pauliDiagonal op.qubits.length string
      applyDiagonal op.qubits entries
  | none => do
      match ← route op gate m.place with
      | .direct => applyLocal op gate
      | .skip => pure ()
      | .both reduced => do
          let left ← Gate.ofName reduced.name
          applyLocal reduced left
      | .rows reduced => applyOneSide reduced false
      | .columns reduced => applyOneSide reduced true

def applyGate (op : Instruction R) : Procedure (Machine R) Unit := do
  let m ← get
  let gate ← Gate.ofName op.name
  checkGate op gate
  if m.isSplit then applyRouted op gate else applyLocal op gate

def setVector (op : Instruction R) : Procedure (Machine R) Unit := do
  let m ← get
  m.requireAllQubits op
  let dim ← checkedShift m.width
  if op.params.size ≠ dim then
    refuse (.elementCount op.name dim op.params.size)
  else
    onStore (assign fun store => store.loadVector op.params)

def setMatrix (op : Instruction R) : Procedure (Machine R) Unit := do
  let m ← get
  m.requireAllQubits op
  match op.matrices with
  | [] => refuse (.missing op.name .densityMatrix)
  | matrix :: _ => onStore (assign fun store => store.loadMatrix matrix)

def project (qubits : List Nat) (outcome : Nat) (probability : R) :
    Procedure (Machine R) Unit := do
  let dim ← checkedShift qubits.length
  allocate 16 dim
  orCrash (outcome < dim)
  let scale := Amplitude.ofReal (1 / Scalar.sqrt probability)
  applyDiagonal qubits (Buffer.tabulate dim fun i => if i = outcome then scale else 0)

end Machine.InPlace

end MixedState
