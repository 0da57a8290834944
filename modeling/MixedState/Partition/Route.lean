import MixedState.Gate
import MixedState.Instruction.Basic
import MixedState.Partition.Place

/-!
# Gates on one chunk

A chunk knows the global bits of its rows and of its columns.  Global controls of a
gate are therefore decided, and what is left of the gate acts on local qubits, on
rows, on columns, or on both.
-/

namespace MixedState

inductive Route (R : Type) where
  /-- The gate acts as it is. -/
  | direct
  /-- The gate leaves the chunk as it is. -/
  | skip
  /-- The reduced gate acts on rows and columns. -/
  | both (op : Instruction R)
  /-- The reduced gate acts on rows only. -/
  | rows (op : Instruction R)
  /-- The conjugated reduced gate acts on columns only. -/
  | columns (op : Instruction R)

variable {R : Type}

def refuseGlobal {α : Type} (name : String) (place : Place) (qubits : List Nat) :
    Outcome α :=
  let qubit := (qubits.find? fun q => !place.isLocal q).getD place.width
  refuse (.globalQubit name qubit)

def reducedGate (gate : Gate) (removed : Nat) : Option Gate :=
  match gate.withFewerControls removed, gate with
  | some reduced, _ => some reduced
  | none, .cz => some .z
  | none, .cp => some .u1
  | none, _ => none

/-- The route of a reduced gate by whether its controls hold for rows and for
columns.  A phase and its conjugate cancel. -/
def Route.ofSides (op : Instruction R) (rowsHold columnsHold : Bool) : Route R :=
  match rowsHold, columnsHold with
  | false, false => .skip
  | true, true => if op.qubits.isEmpty then .skip else .both op
  | true, false => .rows op
  | false, true => .columns op

/-- How an instruction for a gate acts on the chunk at a place.  A diagonal gate
without controls acts as it is, since diagonals are restricted to the chunk. -/
def route (op : Instruction R) (gate : Gate) (place : Place) : Outcome (Route R) :=
  if !place.isSplit || op.qubits.all place.isLocal then
    .ok .direct
  else
    let count := min gate.controlCount op.qubits.length
    if count = 0 then
      if gate.isDiagonal then .ok .direct else refuseGlobal op.name place op.qubits
    else
      let controls := op.qubits.take count
      let targets := op.qubits.drop count
      if !targets.all place.isLocal then
        refuseGlobal op.name place targets
      else
        let known := controls.filter fun q => !place.isLocal q
        let kept := controls.filter place.isLocal
        if !known.all fun q => q - place.width < wordBits then
          crash
        else
          match reducedGate gate known.length with
          | none => refuseGlobal op.name place controls
          | some reduced => do
              let mask := Basis.bitMask (known.map fun q => q - place.width)
              let op := { op with name := reduced.name, qubits := kept ++ targets }
              let rowsHold := Basis.covers mask (← place.rowBits)
              let columnsHold := Basis.covers mask (← place.columnBits)
              return Route.ofSides op rowsHold columnsHold

end MixedState
