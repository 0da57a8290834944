import MixedState.Basis.Bits
import MixedState.Fault

/-!
# Blocks of basis indices

An operator on a list of positions mixes the indices that differ at these
positions only.  Each such block is numbered by the bits at the other positions.
-/

namespace MixedState
namespace Basis

/-- `x` with a zero inserted at position `q`; bits past the word are lost. -/
def insertZero (q x : Nat) : Nat :=
  ((x >>> q) <<< (q + 1)) % wordSize ||| x % twoPow q

def removeBit (q x : Nat) : Nat :=
  ((x >>> (q + 1)) <<< q) ||| x % twoPow q

def spread (ascending : List Nat) (k : Nat) : Nat :=
  ascending.foldl (fun x q => insertZero q x) k

def squeeze (ascending : List Nat) (x : Nat) : Nat :=
  ascending.foldr removeBit x

/-- The index in block `k` that spells `i` at the positions. -/
def blockIndex (positions ascending : List Nat) (k i : Nat) : Nat :=
  spread ascending k ||| scatter positions i

def doubled (places : List Nat) (q : Nat) : List Nat :=
  places ++ places.map fun x => x ||| twoPow q

def isBlockStart (ascending : List Nat) (blocks x : Nat) : Bool :=
  let k := squeeze ascending x
  decide (k < blocks) && spread ascending k == x

/-- Whether `j` is the least number that spells its index: bits at repeated
positions are set at the first of them only. -/
def isLeastSpelling (positions : List Nat) (j : Nat) : Bool :=
  go [] positions j
where
  go (seen rest : List Nat) (j : Nat) : Bool :=
    match rest with
    | [] => true
    | q :: rest => !(j.testBit 0 && seen.contains q) && go (q :: seen) rest (j / 2)

namespace Checked

def addressable (positions : List Nat) : Outcome Unit :=
  orCrash (positions.all fun q => q < wordBits)

def spread (ascending : List Nat) (k : Nat) : Outcome Nat := do
  orCrash (ascending.all fun q => q + 1 < wordBits)
  return Basis.spread ascending k

/-- The indices of block `k`, as a vector of words: each position doubles them, in the order
of the positions. -/
def block (positions ascending : List Nat) (k : Nat) : Outcome (List Nat) := do
  let size ← checkedShift positions.length
  allocate 8 size
  let start ← spread ascending k
  addressable positions
  return positions.foldl doubled [start]

def mask (positions : List Nat) : Outcome Nat := do
  addressable positions
  return bitMask positions

def gather (positions : List Nat) (x : Nat) : Outcome Nat := do
  addressable positions
  orCrash (positions.length ≤ wordBits)
  return Basis.gather positions x

end Checked

end Basis
end MixedState
