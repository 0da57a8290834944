import MixedState.Classical.Hex
import MixedState.Instruction.Basic
import MixedState.Random.Source

/-!
# Classical memory and register

Measurements write to the memory, which is reported, and to the register, which
conditions and Boolean functions read.  A write past the end extends either with
zeros.
-/

namespace MixedState

structure Classical where
  memory : List Bool
  register : List Bool
  deriving DecidableEq

namespace Classical

def zeros (memory register : Nat) : Outcome Classical := do
  allocate 1 memory
  allocate 1 register
  return ⟨List.replicate memory false, List.replicate register false⟩

def empty : Classical :=
  ⟨[], []⟩

def memoryHex (c : Classical) : String :=
  Hex.ofBits c.memory

/-- An instruction without a condition always runs; one with a condition runs
when its register bit is set. -/
def allows {R : Type} (c : Classical) (op : Instruction R) : Bool :=
  match op.condition with
  | none => true
  | some bit => Hex.bitAt c.register bit

/-- The bits with bit `i` set to `b`, extended with zeros up to it. -/
def setBit (bits : List Bool) (i : Nat) (b : Bool) : List Bool :=
  if i < bits.length then bits.set i b
  else bits ++ List.replicate (i - bits.length) false ++ [b]

/-- Writes bit `first`, `first + 1`, … of an outcome to the slots in turn.  A word
has no bit past its width. -/
def writeBits (outcome : Nat) (bits : List Bool) (first : Nat) (slots : List Nat) :
    Outcome (List Bool) :=
  match slots with
  | [] => .ok bits
  | slot :: rest =>
      if first < wordBits ∧ slot + 1 < bufferLimit then
        writeBits outcome (setBit bits slot (outcome.testBit first)) (first + 1) rest
      else
        crash

def record (c : Classical) (outcome : Nat) (memory registers : List Nat) :
    Outcome Classical := do
  return {
    memory := ← writeBits outcome c.memory 0 memory
    register := ← writeBits outcome c.register 0 registers }

variable {R : Type}

/-- The bits that two lists share, up to the length of the longest of three. -/
def conjunction (width : Nat) (a b : List Bool) : List Bool :=
  (List.range width).map fun i => Hex.bitAt a i && Hex.bitAt b i

def operand (what text : String) : Outcome (List Bool) :=
  match Hex.toBits? text with
  | some bits => .ok bits
  | none => refuse (.invalidInstruction s!"bfunc {what} '{text}'")

/-- Writes the truth of `(register & mask) relation target` to the first listed
register bit and, if one is listed, to the first memory slot. -/
def applyBfunc (c : Classical) (op : Instruction R) : Outcome Classical :=
  match op.texts with
  | mask :: target :: _ =>
      match op.relation, op.registers with
      | none, _ => refuse (.missing op.name .relation)
      | some _, [] => refuse (.missing op.name .register)
      | some relation, bit :: _ => do
          let mask ← operand "mask" mask
          let target ← operand "target" target
          let width := max (max c.register.length mask.length) target.length
          let masked := conjunction width c.register mask
          let truth := (relation.holds (Hex.compareBits masked target)).toNat
          c.record truth (op.memory.take 1) [bit]
  | _ => refuse (.missing op.name .maskAndTarget)

def read (bits : List Bool) (slots : List Nat) : Outcome Nat :=
  if slots.length ≤ wordBits then .ok (Hex.value (slots.map (Hex.bitAt bits)))
  else crash

/-- Draws a reported value from the row of the table that the memory slots
select, and writes it back. -/
def applyReadout [Scalar R] (c : Classical) (op : Instruction R) (source : Source) :
    Outcome (Classical × Source) := do
  let current ← read c.memory op.memory
  match op.readout[current]? with
  | none =>
      refuse (.elementCount op.name (← checkedShift op.memory.length) op.readout.length)
  | some row => do
      let (reported, source) ← source.choose row
      let c ← c.record reported op.memory op.registers
      return (c, source)

end Classical

end MixedState
