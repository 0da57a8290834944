import MixedState.Density.Kernel

/-!
# Kernels in one buffer

A kernel goes over the indices of a buffer, or over its blocks, in ascending order, and
writes the new entries over the old ones.
-/

namespace MixedState
namespace Kernel
namespace InPlace

variable {R : Type} [Scalar R]

def read (b : Buffer R) (i : Nat) : Outcome (Amplitude R) := do
  orCrash (i < b.size)
  return b.entry i

def write (b : Buffer R) (i : Nat) (a : Amplitude R) : Outcome (Buffer R) := do
  orCrash (i < b.size)
  return b.setIfInBounds i a

def sweep (count : Nat) (step : Nat → Buffer R → Outcome (Buffer R)) (b : Buffer R) :
    Outcome (Buffer R) :=
  (List.range count).foldlM (fun b i => step i b) b

def each (f : Nat → Amplitude R → Outcome (Amplitude R)) (b : Buffer R) :
    Outcome (Buffer R) :=
  sweep b.size (fun i b => do write b i (← f i (← read b i))) b

def cross (f : Nat → Amplitude R → Amplitude R) (i j : Nat) (b : Buffer R) :
    Outcome (Buffer R) := do
  let first ← read b i
  let second ← read b j
  write (← write b i (f i second)) j (f j first)

/-- Crosses the entry at each index that leads a pair with that of its partner. -/
def pairs (leads : Nat → Bool) (partner : Nat → Nat)
    (f : Nat → Amplitude R → Amplitude R) (b : Buffer R) : Outcome (Buffer R) :=
  sweep b.size (fun i b => if leads i then cross f i (partner i) b else return b) b

/-!
# Blocks
-/

def takeOut (places : List Nat) (b : Buffer R) : Outcome (Buffer R × Buffer R) :=
  places.foldlM (fun (taken, b) place => do
    let a ← read b place
    return (taken.push a, ← write b place 0)) (#[], b)

def rowTimes (columns taken : Buffer R) (i : Nat) : Outcome (Amplitude R) :=
  (List.range taken.size).foldlM (fun sum j => do
    return sum + (← read columns (i + taken.size * j)) * taken.entry j) 0

def replaceBlock (columns : Buffer R) (places : List Nat) (b : Buffer R) :
    Outcome (Buffer R) := do
  let (taken, b) ← takeOut places b
  places.zipIdx.foldlM (fun b (place, i) => do
    write b place (← rowTimes columns taken i)) b

def denseBlock (positions ascending : List Nat) (columns : Buffer R) (k : Nat)
    (b : Buffer R) : Outcome (Buffer R) := do
  replaceBlock columns (← Basis.Checked.block positions ascending k) b

/-!
# The kernels
-/

def dense (positions : List Nat) (columns : Buffer R) (b : Buffer R) :
    Outcome (Buffer R) := do
  let dim ← checkedShift positions.length
  allocate 16 dim
  sweep (b.size / dim) (denseBlock positions (Basis.sorted positions) columns) b

def diagonal (positions : List Nat) (entries : Buffer R) (b : Buffer R) :
    Outcome (Buffer R) :=
  each (fun i a => do
    return a * (← read entries (← Basis.Checked.gather positions i))) b

def phase (positions : List Nat) (factor : Amplitude R) (b : Buffer R) :
    Outcome (Buffer R) := do
  let mask ← Basis.Checked.mask positions
  each (fun i a => return if Basis.covers mask i then a * factor else a) b

def controlled (positions : List Nat) (f : Nat → Amplitude R → Amplitude R)
    (b : Buffer R) : Outcome (Buffer R) :=
  match positions.getLast? with
  | none => .ok b
  | some target => do
      let bit ← checkedShift target
      let mask ← Basis.Checked.mask positions.dropLast
      pairs (fun i => Basis.covers mask i && !i.testBit target) (fun i => i ||| bit) f b

def flip (positions : List Nat) (b : Buffer R) : Outcome (Buffer R) :=
  controlled positions (fun _ a => a) b

def flipY (positions : List Nat) (conjugate : Bool) (b : Buffer R) : Outcome (Buffer R) :=
  let i : Amplitude R := if conjugate then -Amplitude.unit else Amplitude.unit
  let target := positions.getLastD 0
  controlled positions (fun x a => if x.testBit target then i * a else -i * a) b

def exchange (p q : Nat) (b : Buffer R) : Outcome (Buffer R) := do
  let low ← checkedShift p
  let high ← checkedShift q
  pairs (fun i => i.testBit p && !i.testBit q) (fun i => i ^^^ low ^^^ high) (fun _ a => a) b

/-- A string that flips bits crosses the pairs of indices that differ in them; the highest
of these bits is clear in the index that leads. -/
def pauli (positions : List Nat) (string : String) (factor : Amplitude R)
    (b : Buffer R) : Outcome (Buffer R) := do
  let masks ← PauliMasks.ofString positions string
  if masks.x = 0 then
    each (fun i a => return a * (factor * masks.phase i)) b
  else
    pairs (fun i => !i.testBit masks.x.log2) (fun i => i ^^^ masks.x)
      (fun i a => factor * masks.phase (i ^^^ masks.x) * a) b

end InPlace
end Kernel
end MixedState
