import MixedState.Scalar

/-!
# Amplitudes

Complex numbers over a type of scalars, with the usual rectangular formulas.
-/

namespace MixedState

@[ext] structure Amplitude (R : Type) where
  re : R
  im : R

namespace Amplitude

variable {R : Type} [Scalar R]

instance : Zero (Amplitude R) := ⟨⟨0, 0⟩⟩

instance : One (Amplitude R) := ⟨⟨1, 0⟩⟩

instance : Inhabited (Amplitude R) := ⟨0⟩

instance : Add (Amplitude R) := ⟨fun a b => ⟨a.re + b.re, a.im + b.im⟩⟩

instance : Neg (Amplitude R) := ⟨fun a => ⟨-a.re, -a.im⟩⟩

instance : Mul (Amplitude R) :=
  ⟨fun a b => ⟨a.re * b.re - a.im * b.im, a.re * b.im + a.im * b.re⟩⟩

def unit : Amplitude R :=
  ⟨0, 1⟩

def ofReal (x : R) : Amplitude R :=
  ⟨x, 0⟩

def conj (a : Amplitude R) : Amplitude R :=
  ⟨a.re, -a.im⟩

def polar (r angle : R) : Amplitude R :=
  ⟨r * Scalar.cos angle, r * Scalar.sin angle⟩

def exp (a : Amplitude R) : Amplitude R :=
  polar (Scalar.exp a.re) a.im

@[simp] theorem zero_re : (0 : Amplitude R).re = 0 := rfl

@[simp] theorem zero_im : (0 : Amplitude R).im = 0 := rfl

@[simp] theorem one_re : (1 : Amplitude R).re = 1 := rfl

@[simp] theorem one_im : (1 : Amplitude R).im = 0 := rfl

@[simp] theorem add_re (a b : Amplitude R) : (a + b).re = a.re + b.re := rfl

@[simp] theorem add_im (a b : Amplitude R) : (a + b).im = a.im + b.im := rfl

@[simp] theorem neg_re (a : Amplitude R) : (-a).re = -a.re := rfl

@[simp] theorem neg_im (a : Amplitude R) : (-a).im = -a.im := rfl

@[simp] theorem mul_re (a b : Amplitude R) :
    (a * b).re = a.re * b.re - a.im * b.im := rfl

@[simp] theorem mul_im (a b : Amplitude R) :
    (a * b).im = a.re * b.im + a.im * b.re := rfl

@[simp] theorem conj_re (a : Amplitude R) : a.conj.re = a.re := rfl

@[simp] theorem conj_im (a : Amplitude R) : a.conj.im = -a.im := rfl

end Amplitude

end MixedState
