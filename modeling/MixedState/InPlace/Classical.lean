import MixedState.Classical.Register
import MixedState.InPlace.Procedure
import MixedState.Results.Archive

/-!
# Classical bits and saved data in place

Bits are written one after the other.  A map gets its entry before a value is put into
it, and an average its sum before its count.
-/

namespace MixedState

open Procedure

variable {R : Type}

namespace Classical.InPlace

def memoryField : Field Classical (List Bool) :=
  ⟨Classical.memory, fun c bits => { c with memory := bits }⟩

def registerField : Field Classical (List Bool) :=
  ⟨Classical.register, fun c bits => { c with register := bits }⟩

def writeBits (outcome first : Nat) (slots : List Nat) : Procedure (List Bool) Unit :=
  match slots with
  | [] => pure ()
  | slot :: rest => do
      orCrash (first < wordBits && slot + 1 < bufferLimit)
      let bits ← get
      set (setBit bits slot (outcome.testBit first))
      writeBits outcome (first + 1) rest

def record (outcome : Nat) (memory registers : List Nat) : Procedure Classical Unit := do
  inside memoryField (writeBits outcome 0 memory)
  inside registerField (writeBits outcome 0 registers)

def applyBfunc (op : Instruction R) : Procedure Classical Unit :=
  match op.texts with
  | mask :: target :: _ =>
      match op.relation, op.registers with
      | none, _ => (refuse (.missing op.name .relation) : Outcome Unit)
      | some _, [] => (refuse (.missing op.name .register) : Outcome Unit)
      | some relation, bit :: _ => do
          let c ← get
          let mask ← operand "mask" mask
          let target ← operand "target" target
          let width := max (max c.register.length mask.length) target.length
          let masked := conjunction width c.register mask
          let truth := (relation.holds (Hex.compareBits masked target)).toNat
          inside registerField (writeBits truth 0 [bit])
          inside memoryField (writeBits truth 0 (op.memory.take 1))
  | _ => (refuse (.missing op.name .maskAndTarget) : Outcome Unit)

end Classical.InPlace

namespace Archive.InPlace

variable [Scalar R] {β : Type}

def latestField : Field (Archive R) (KeyMap (SavedData R)) :=
  ⟨Archive.latest, fun archive slots => { archive with latest := slots }⟩

def everyField : Field (Archive R) (KeyMap (List (SavedData R))) :=
  ⟨Archive.every, fun archive slots => { archive with every := slots }⟩

def averageField : Field (Archive R) (KeyMap (Average R)) :=
  ⟨Archive.average, fun archive slots => { archive with average := slots }⟩

def memoryLatestField : Field (Archive R) (KeyMap (KeyMap (SavedData R))) :=
  ⟨Archive.memoryLatest, fun archive slots => { archive with memoryLatest := slots }⟩

def memoryEveryField : Field (Archive R) (KeyMap (KeyMap (List (SavedData R)))) :=
  ⟨Archive.memoryEvery, fun archive slots => { archive with memoryEvery := slots }⟩

def memoryAverageField : Field (Archive R) (KeyMap (KeyMap (Average R))) :=
  ⟨Archive.memoryAverage, fun archive slots => { archive with memoryAverage := slots }⟩

def entry (slots : Field (Archive R) (KeyMap β)) (key : String) (absent : β) :
    Field (Archive R) β :=
  ⟨fun archive => ((slots.get archive).find? key).getD absent,
    fun archive value => slots.set archive ((slots.get archive).insert key value)⟩

def orDefault (slots : Field (Archive R) (KeyMap β)) (key : String) (absent : β) :
    Procedure (Archive R) Unit := do
  let archive ← get
  match (slots.get archive).find? key with
  | some _ => pure ()
  | none => setField (entry slots key absent) absent

def modifyField (field : Field (Archive R) β) (f : β → β) : Procedure (Archive R) Unit := do
  let archive ← get
  setField field (f (field.get archive))

def addAverage (slots : Field (Archive R) (KeyMap (Average R))) (slot : String)
    (data : SavedData R) (what : String) : Procedure (Archive R) Unit := do
  let archive ← get
  match (slots.get archive).find? slot with
  | none => modifyField slots fun present => present.insert slot (Average.ofFirst data)
  | some average =>
      match average.sum.add? data with
      | none => refuse (.elementCount s!"{what} '{slot}'" average.sum.size data.size)
      | some sum => do
          setField (entry slots slot average) ⟨sum, average.count⟩
          modifyField (entry slots slot average) fun average => ⟨average.sum, average.count + 1⟩

def save (memory key what : String) (mode : SaveMode) (data : SavedData R) :
    Procedure (Archive R) Unit :=
  match mode.combine, mode.perMemory with
  | .latest, false => modifyField latestField fun slots => slots.insert key data
  | .every, false => do
      orDefault everyField key []
      modifyField (entry everyField key []) fun kept => kept ++ [data]
  | .average, false => addAverage averageField key data what
  | .latest, true => do
      orDefault memoryLatestField key .empty
      modifyField (entry memoryLatestField key .empty) fun slots => slots.insert memory data
  | .every, true => do
      let slots := entry memoryEveryField key .empty
      orDefault memoryEveryField key .empty
      orDefault slots memory []
      modifyField (entry slots memory []) fun kept => kept ++ [data]
  | .average, true => do
      orDefault memoryAverageField key .empty
      addAverage (entry memoryAverageField key .empty) memory data what

end Archive.InPlace

end MixedState
