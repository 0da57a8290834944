import MixedState.Basis.Block
import MixedState.Pauli

/-!
# Operators on flat buffers

A buffer is read as a state vector over its index bits.  Each kernel gives the
new buffer entry by entry from the old one, and crashes where it would address
a bit past the word or an entry outside the buffer.
-/

namespace MixedState
namespace Kernel

variable {R : Type} [Scalar R]

/-- Where the dense kernel reads for each number, as an offset in the block.
Repeated positions leave several numbers to an index, of which only the least
reads it. -/
def readOffsets (positions : List Nat) : Array (Option Nat) :=
  Array.ofFn fun j : Fin (twoPow positions.length) =>
    if Basis.isLeastSpelling positions j.val then some (Basis.scatter positions j.val)
    else none

def readAt (b : Buffer R) (start : Nat) : Option Nat → Amplitude R
  | some offset => b.entry (start ||| offset)
  | none => 0

def product (b : Buffer R) (offsets : Array (Option Nat)) (columns : Buffer R)
    (start i : Nat) : Amplitude R :=
  sumBelow offsets.size fun j =>
    columns.entry (i + offsets.size * j) * readAt b start (offsets.getD j none)

/-- The new entry at `x`, which is the entry of the product that its bits spell.
An index outside the first `blocks` blocks keeps its entry. -/
def denseEntry (b : Buffer R) (positions ascending : List Nat) (blocks : Nat)
    (offsets : Array (Option Nat)) (columns : Buffer R) (x : Nat) : Amplitude R :=
  let start := Basis.clearBits (Basis.bitMask positions) x
  if Basis.isBlockStart ascending blocks start then
    product b offsets columns start (Basis.gather positions x)
  else
    b.entry x

def dense (positions : List Nat) (columns : Buffer R) (b : Buffer R) :
    Outcome (Buffer R) := do
  let dim ← checkedShift positions.length
  allocate 16 dim
  let blocks := b.size / dim
  if blocks = 0 then
    return b
  else
    orCrash (positions.all fun q => q < wordBits && twoPow q < b.size)
    orCrash (dim * dim ≤ columns.size)
    let ascending := Basis.sorted positions
    let offsets := readOffsets positions
    return Buffer.tabulate b.size (denseEntry b positions ascending blocks offsets columns)

def diagonal (positions : List Nat) (entries : Buffer R) (b : Buffer R) :
    Outcome (Buffer R) :=
  if b.size = 0 then
    .ok b
  else do
    Basis.Checked.addressable positions
    orCrash (positions.length ≤ wordBits)
    orCrash ((List.range b.size).all fun i => Basis.gather positions i < entries.size)
    return Buffer.tabulate b.size fun i =>
      b.entry i * entries.entry (Basis.gather positions i)

def phase (positions : List Nat) (factor : Amplitude R) (b : Buffer R) :
    Outcome (Buffer R) := do
  let mask ← Basis.Checked.mask positions
  return Buffer.tabulate b.size fun i =>
    if Basis.covers mask i then b.entry i * factor else b.entry i

/-- Gives each index that is reached by `f` from the index with the target bit
flipped, if its control bits are set; a target that is a control stays. -/
def controlled (positions : List Nat) (f : Nat → Amplitude R → Amplitude R)
    (b : Buffer R) : Outcome (Buffer R) :=
  match positions.getLast? with
  | none => .ok b
  | some target => do
      let controls := positions.dropLast
      let bit ← checkedShift target
      let mask ← Basis.Checked.mask controls
      if controls.contains target then
        return b
      else
        orCrash (bit < b.size || b.size ≤ mask)
        return Buffer.tabulate b.size fun i =>
          if Basis.covers mask i then f i (b.entry (i ^^^ bit)) else b.entry i

def flip (positions : List Nat) (b : Buffer R) : Outcome (Buffer R) :=
  controlled positions (fun _ a => a) b

def flipY (positions : List Nat) (conjugate : Bool) (b : Buffer R) : Outcome (Buffer R) :=
  let i : Amplitude R := if conjugate then -Amplitude.unit else Amplitude.unit
  let target := positions.getLastD 0
  controlled positions (fun x a => if x.testBit target then i * a else -i * a) b

/-- Exchanges two bits of the index, unless no entry has the first bit set. -/
def exchange (p q : Nat) (b : Buffer R) : Outcome (Buffer R) := do
  let low ← checkedShift p
  let high ← checkedShift q
  if b.size ≤ low then
    return b
  else
    orCrash (high < b.size)
    return Buffer.tabulate b.size fun i =>
      if i.testBit p == i.testBit q then b.entry i else b.entry (i ^^^ low ^^^ high)

def pauli (positions : List Nat) (string : String) (factor : Amplitude R)
    (b : Buffer R) : Outcome (Buffer R) := do
  let masks ← PauliMasks.ofString positions string
  orCrash (b.size = 0 || masks.x < b.size)
  return Buffer.tabulate b.size fun i =>
    let source := i ^^^ masks.x
    if masks.x = 0 then b.entry i * (factor * masks.phase i)
    else factor * masks.phase source * b.entry source

end Kernel
end MixedState
