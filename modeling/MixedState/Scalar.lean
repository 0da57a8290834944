/-!
# Real scalars

Everything that computes with amplitudes and probabilities is written over a
type of scalars with the operations below.  Programs run over `Float`; laws are
stated over exact reals.
-/

namespace MixedState

/-- Real numbers as the simulator uses them. -/
class Scalar (R : Type) extends Zero R, One R, Add R, Sub R, Neg R, Mul R, Div R where
  ofNat : Nat → R
  sqrt : R → R
  sin : R → R
  cos : R → R
  exp : R → R
  /-- Half a turn. -/
  pi : R
  lt : R → R → Bool
  le : R → R → Bool
  /-- The next smaller scalar where scalars are spaced, else the scalar itself. -/
  below : R → R
  /-- False of infinities and of results that are no number. -/
  isFinite : R → Bool

def doubleBelow (x : Float) : Float :=
  Float.ofBits (x.toBits - 1)

instance : Scalar Float where
  zero := 0.0
  one := 1.0
  add := Float.add
  sub := Float.sub
  neg := Float.neg
  mul := Float.mul
  div := Float.div
  ofNat := Float.ofNat
  sqrt := Float.sqrt
  sin := Float.sin
  cos := Float.cos
  exp := Float.exp
  pi := 3.141592653589793
  lt x y := decide (x < y)
  le x y := decide (x ≤ y)
  below := doubleBelow
  isFinite := Float.isFinite

namespace Scalar

variable {R : Type} [Scalar R]

def ofInt : Int → R
  | .ofNat n => ofNat n
  | .negSucc n => -(ofNat (n + 1))

def half (x : R) : R :=
  x / ofNat 2

def square (x : R) : R :=
  x * x

def abs (x : R) : R :=
  if lt x 0 then -x else x

def clamp (x : R) : R :=
  if lt 0 x then x else 0

end Scalar

def sumBelow {α : Type} [Zero α] [Add α] (n : Nat) (f : Nat → α) : α :=
  match n with
  | 0 => 0
  | n + 1 => sumBelow n f + f n

@[simp] theorem sumBelow_zero {α : Type} [Zero α] [Add α] (f : Nat → α) :
    sumBelow 0 f = 0 :=
  rfl

@[simp] theorem sumBelow_succ {α : Type} [Zero α] [Add α] (n : Nat) (f : Nat → α) :
    sumBelow (n + 1) f = sumBelow n f + f n :=
  rfl

theorem sumBelow_congr {α : Type} [Zero α] [Add α] {n : Nat} {f g : Nat → α}
    (h : ∀ i, i < n → f i = g i) : sumBelow n f = sumBelow n g := by
  induction n with
  | zero => rfl
  | succ n ih =>
    rw [sumBelow_succ, sumBelow_succ, ih fun i hi => h i (Nat.lt_succ_of_lt hi),
      h n (Nat.lt_succ_self n)]

end MixedState
