import MixedState.Power

/-!
# Bits of basis indices

A basis index of a register is a number whose bit `q` is the value of qubit
`q`.  A list of positions names bits in an order of its own: its first position
is the low bit of the number it spells.
-/

namespace MixedState
namespace Basis

/-- The number whose bit `j` is the bit of `x` at the `j`-th position. -/
def gather (positions : List Nat) (x : Nat) : Nat :=
  match positions with
  | [] => 0
  | q :: rest => (x.testBit q).toNat + 2 * gather rest x

/-- The index whose bit at the `j`-th position is bit `j` of `y`; a position
listed twice takes the union of its bits. -/
def scatter (positions : List Nat) (y : Nat) : Nat :=
  match positions with
  | [] => 0
  | q :: rest => (if y.testBit 0 then twoPow q else 0) ||| scatter rest (y / 2)

def bitMask (positions : List Nat) : Nat :=
  match positions with
  | [] => 0
  | q :: rest => twoPow q ||| bitMask rest

def clearBits (mask x : Nat) : Nat :=
  x ^^^ (x &&& mask)

def covers (mask x : Nat) : Bool :=
  x &&& mask == mask

def sorted (positions : List Nat) : List Nat :=
  positions.mergeSort fun a b => decide (a ≤ b)

def countOnes (width x : Nat) : Nat :=
  match width with
  | 0 => 0
  | width + 1 => (x.testBit 0).toNat + countOnes width (x / 2)

def oddParity (x : Nat) : Bool :=
  countOnes 64 x % 2 == 1

@[simp] theorem gather_nil (x : Nat) : gather [] x = 0 := rfl

@[simp] theorem gather_cons (q : Nat) (rest : List Nat) (x : Nat) :
    gather (q :: rest) x = (x.testBit q).toNat + 2 * gather rest x := rfl

@[simp] theorem scatter_nil (y : Nat) : scatter [] y = 0 := rfl

@[simp] theorem scatter_cons (q : Nat) (rest : List Nat) (y : Nat) :
    scatter (q :: rest) y = (if y.testBit 0 then twoPow q else 0) ||| scatter rest (y / 2) := rfl

@[simp] theorem bitMask_nil : bitMask [] = 0 := rfl

@[simp] theorem bitMask_cons (q : Nat) (rest : List Nat) :
    bitMask (q :: rest) = twoPow q ||| bitMask rest := rfl

end Basis
end MixedState
