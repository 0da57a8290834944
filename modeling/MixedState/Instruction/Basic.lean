import MixedState.Instruction.Kind
import MixedState.Matrix

/-!
# Instructions

One instruction of a program: its kind and name, the qubits it acts on, its
parameters, and the classical slots it writes.
-/

namespace MixedState

structure PauliTerm (R : Type) where
  pauli : String
  coeff : R
  sqCoeff : R

@[ext] structure Instruction (R : Type) where
  kind : Kind
  name : String
  /-- Qubits in the order of the operator's index bits. -/
  qubits : List Nat
  params : Buffer R
  matrices : List (Mat R)
  /-- The save key, the Pauli string, or a mask and a target. -/
  texts : List String
  indices : List Nat
  memory : List Nat
  registers : List Nat
  /-- The register bit that has to be set for the instruction to run. -/
  condition : Option Nat
  relation : Option Relation
  /-- Readout probabilities, one row for each true value. -/
  readout : List (List R)
  terms : List (PauliTerm R)
  saveMode : SaveMode

namespace Instruction

variable {R : Type}

def ofKind (kind : Kind) : Instruction R :=
  { kind := kind
    name := kind.name
    qubits := []
    params := #[]
    matrices := []
    texts := []
    indices := []
    memory := []
    registers := []
    condition := none
    relation := none
    readout := []
    terms := []
    saveMode := .single }

def gate [Scalar R] (name : String) (qubits : List Nat) (params : List R) : Instruction R :=
  { ofKind .gate with
    name := name, qubits := qubits, params := (params.map Amplitude.ofReal).toArray }

def pauli (qubits : List Nat) (string : String) : Instruction R :=
  { ofKind .gate with name := "pauli", qubits := qubits, texts := [string] }

def measure (qubits memory : List Nat) : Instruction R :=
  { ofKind .measure with qubits := qubits, memory := memory }

def reset (qubits : List Nat) : Instruction R :=
  { ofKind .reset with qubits := qubits }

def barrier (qubits : List Nat) : Instruction R :=
  { ofKind .barrier with qubits := qubits }

def checkSquare (name : String) (dim : Nat) (m : Mat R) : Outcome Unit :=
  if m.hasShape dim dim then .ok () else refuse (.matrixShape name dim m.rows m.cols)

def matrix (qubits : List Nat) (m : Mat R) : Outcome (Instruction R) := do
  let dim ← checkedShift qubits.length
  if m.hasShape dim dim || m.hasShape 1 dim then
    return { ofKind .matrix with qubits := qubits, matrices := [m] }
  else
    refuse (.matrixShape "matrix" dim m.rows m.cols)

def diagonal (qubits : List Nat) (entries : Buffer R) : Instruction R :=
  { ofKind .diagonal with qubits := qubits, params := entries }

def kraus (qubits : List Nat) (operators : List (Mat R)) : Outcome (Instruction R) := do
  let dim ← checkedShift qubits.length
  operators.forM (checkSquare "kraus" dim)
  return { ofKind .kraus with qubits := qubits, matrices := operators }

def superop (qubits : List Nat) (m : Mat R) : Outcome (Instruction R) := do
  let dim ← checkedShift (2 * qubits.length)
  checkSquare "superop" dim m
  return { ofKind .superop with qubits := qubits, matrices := [m] }

def setStatevec (qubits : List Nat) (amplitudes : Buffer R) : Instruction R :=
  { ofKind .setStatevec with qubits := qubits, params := amplitudes }

def setDensmat (qubits : List Nat) (m : Mat R) : Instruction R :=
  { ofKind .setDensmat with qubits := qubits, matrices := [m] }

def save (kind : Kind) (qubits : List Nat) (key : String) (mode : SaveMode) : Instruction R :=
  { ofKind kind with qubits := qubits, texts := [key], saveMode := mode }

def saveAmpsSq (qubits indices : List Nat) (key : String) (mode : SaveMode) : Instruction R :=
  { save .saveAmpsSq qubits key mode with indices := indices }

def saveExpval (qubits : List Nat) (terms : List (PauliTerm R)) (key : String)
    (withVariance : Bool) (mode : SaveMode) : Instruction R :=
  { save (if withVariance then .saveExpvalVar else .saveExpval) qubits key mode with
    terms := terms }

def bfunc (mask target : String) (relation : Relation) (register : Nat)
    (memory : Option Nat) : Instruction R :=
  { ofKind .bfunc with
    texts := [mask, target], relation := some relation, registers := [register],
    memory := memory.toList }

def readoutError (memory : List Nat) (table : List (List R)) : Instruction R :=
  { ofKind .readoutError with memory := memory, readout := table }

def withCondition (op : Instruction R) (register : Nat) : Instruction R :=
  { op with condition := some register }

def withRegisters (op : Instruction R) (registers : List Nat) : Instruction R :=
  { op with registers := registers }

def key? (op : Instruction R) : Option String :=
  op.texts.head?

def realParam? (op : Instruction R) (i : Nat) : Option R :=
  op.params[i]?.map Amplitude.re

end Instruction

end MixedState
