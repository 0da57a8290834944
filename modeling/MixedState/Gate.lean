import MixedState.Fault

/-!
# Gates

The named gates.  Parameters and qubits travel with the instruction that names
the gate.
-/

namespace MixedState

inductive Gate where
  | id | x | y | z
  | h | s | sdg | t | tdg | sx | sxdg
  | r | rx | ry | rz
  | u1 | u2 | u3
  | cx | cy | cz | cp | swap | rxx | ryy | rzz | rzx | ecr
  | ccx
  | pauli
  deriving DecidableEq, Repr

namespace Gate

def table : List (String × Gate) :=
  [("delay", id), ("id", id), ("x", x), ("y", y), ("z", z), ("s", s), ("sdg", sdg),
    ("h", h), ("t", t), ("tdg", tdg), ("x90", sx), ("sx", sx), ("sxdg", sxdg),
    ("r", r), ("rx", rx), ("ry", ry), ("rz", rz), ("p", u1), ("u1", u1), ("u2", u2),
    ("u3", u3), ("u", u3), ("U", u3), ("CX", cx), ("cx", cx), ("cy", cy), ("cz", cz),
    ("cp", cp), ("cu1", cp), ("swap", swap), ("rxx", rxx), ("ryy", ryy), ("rzz", rzz),
    ("rzx", rzx), ("ecr", ecr), ("ccx", ccx), ("pauli", pauli)]

def names : List String :=
  table.map Prod.fst

def ofName? (name : String) : Option Gate :=
  table.lookup name

def ofName (name : String) : Outcome Gate :=
  match ofName? name with
  | some gate => .ok gate
  | none => refuse (.unknownGate name)

def name : Gate → String
  | id => "id"
  | x => "x"
  | y => "y"
  | z => "z"
  | h => "h"
  | s => "s"
  | sdg => "sdg"
  | t => "t"
  | tdg => "tdg"
  | sx => "sx"
  | sxdg => "sxdg"
  | r => "r"
  | rx => "rx"
  | ry => "ry"
  | rz => "rz"
  | u1 => "u1"
  | u2 => "u2"
  | u3 => "u3"
  | cx => "cx"
  | cy => "cy"
  | cz => "cz"
  | cp => "cp"
  | swap => "swap"
  | rxx => "rxx"
  | ryy => "ryy"
  | rzz => "rzz"
  | rzx => "rzx"
  | ecr => "ecr"
  | ccx => "ccx"
  | pauli => "pauli"

def width : Gate → Option Nat
  | cx | cy | cz | cp | swap | rxx | ryy | rzz | rzx | ecr => some 2
  | ccx => some 3
  | pauli => none
  | _ => some 1

def paramCount : Gate → Nat
  | rx | ry | rz | u1 | cp | rxx | ryy | rzz | rzx => 1
  | r | u2 => 2
  | u3 => 3
  | _ => 0

/-- The number of leading qubits that act as controls; in a symmetric phase
gate every qubit does. -/
def controlCount : Gate → Nat
  | cx | cy => 1
  | cz | cp | ccx => 2
  | _ => 0

def isControlled (gate : Gate) : Bool :=
  0 < gate.controlCount

def isDiagonal : Gate → Bool
  | id | z | s | sdg | t | tdg | rz | u1 | cz | cp | rzz => true
  | _ => false

/-- The gate left after removing controls, if it has a name. -/
def withFewerControls (gate : Gate) (removed : Nat) : Option Gate :=
  match gate, removed with
  | gate, 0 => some gate
  | cx, 1 => some x
  | ccx, 2 => some x
  | ccx, 1 => some cx
  | cy, 1 => some y
  | cz, 1 => some z
  | cp, 1 => some u1
  | _, _ => none

theorem ofName?_name (gate : Gate) : ofName? gate.name = some gate := by
  cases gate <;> rfl

end Gate

end MixedState
