import MixedState.Basis.Bits
import MixedState.Matrix

/-!
# Pauli strings

A Pauli string over a list of qubits, its last letter on the first qubit, sends
the basis state `s` to `i ^ y * (-1) ^ |s & z|` times the basis state `s ^ x`.
-/

namespace MixedState

structure PauliMasks where
  x : Nat
  z : Nat
  countY : Nat
  deriving DecidableEq, Repr

namespace PauliMasks

def add (masks : PauliMasks) (q : Nat) (letter : Char) : Outcome PauliMasks := do
  let bit ← checkedShift q
  match letter with
  | 'I' => return masks
  | 'X' => return { masks with x := masks.x ||| bit }
  | 'Z' => return { masks with z := masks.z ||| bit }
  | 'Y' =>
      return { x := masks.x ||| bit, z := masks.z ||| bit, countY := masks.countY + 1 }
  | other => refuse (.invalidInstruction s!"pauli (invalid character '{other}')")

def ofString (qubits : List Nat) (string : String) : Outcome PauliMasks :=
  if string.utf8ByteSize = qubits.length then
    (qubits.zip string.toList.reverse).foldlM
      (fun masks (q, letter) => masks.add q letter) ⟨0, 0, 0⟩
  else
    refuse (.elementCount s!"pauli '{string}'" qubits.length string.utf8ByteSize)

variable {R : Type} [Scalar R]

def globalPhase (masks : PauliMasks) : Amplitude R :=
  match masks.countY % 4 with
  | 0 => ⟨1, 0⟩
  | 1 => ⟨0, 1⟩
  | 2 => ⟨-1, 0⟩
  | _ => ⟨0, -1⟩

def phase (masks : PauliMasks) (index : Nat) : Amplitude R :=
  if Basis.oddParity (index &&& masks.z) then -(masks.globalPhase) else masks.globalPhase

end PauliMasks

def isDiagonalPauli (string : String) : Bool :=
  string.toList.all fun c => c == 'I' || c == 'Z'

def pauliDiagonal {R : Type} [Scalar R] (width : Nat) (string : String) :
    Outcome (Buffer R) := do
  let dim ← checkedShift width
  allocate 16 dim
  let signed := string.toList.reverse.zipIdx.filterMap fun (c, i) =>
    if c = 'Z' then some i else none
  let mask := Basis.bitMask signed
  return Buffer.tabulate dim fun i => if Basis.oddParity (i &&& mask) then -1 else 1

end MixedState
