import MixedState.Matrix

/-!
# Gate matrices

The matrices of the named gates, their first qubit in the low bit of an index.
-/

namespace MixedState
namespace Unitary

variable {R : Type} [Scalar R]

open Scalar (half cos sin)
open Mat (two four)

def real (x : R) : Amplitude R :=
  ⟨x, 0⟩

def imaginary (x : R) : Amplitude R :=
  ⟨0, x⟩

def u3 (theta phi lambda : R) : Mat R :=
  let s := sin (half theta)
  let c := cos (half theta)
  two (real c) (-(Amplitude.polar s lambda))
    (Amplitude.polar s phi) (Amplitude.polar c (phi + lambda))

def h : Mat R :=
  u3 (half Scalar.pi) 0 Scalar.pi

def u2 (phi lambda : R) : Mat R :=
  u3 (half Scalar.pi) phi lambda

def rx (theta : R) : Mat R :=
  let s := sin (half theta)
  let c := cos (half theta)
  two (real c) (imaginary (-s)) (imaginary (-s)) (real c)

def ry (theta : R) : Mat R :=
  let s := sin (half theta)
  let c := cos (half theta)
  two (real c) (real (-s)) (real s) (real c)

def r (theta phi : R) : Mat R :=
  let s := sin (half theta)
  let c := cos (half theta)
  two (real c) (imaginary (-1) * Amplitude.polar s (-phi))
    (imaginary (-1) * Amplitude.polar s phi) (real c)

def sx : Mat R :=
  two ⟨half 1, half 1⟩ ⟨half 1, -half 1⟩ ⟨half 1, -half 1⟩ ⟨half 1, half 1⟩

def sxdg : Mat R :=
  sx.conj

def ecr : Mat R :=
  let a := Scalar.sqrt (half 1)
  four 0 (real a) 0 (imaginary a)
    (real a) 0 (imaginary (-a)) 0
    0 (imaginary a) 0 (real a)
    (imaginary (-a)) 0 (real a) 0

def rxx (theta : R) : Mat R :=
  let a := real (cos (half theta))
  let b := imaginary (-(sin (half theta)))
  four a 0 0 b
    0 a b 0
    0 b a 0
    b 0 0 a

def ryy (theta : R) : Mat R :=
  let a := real (cos (half theta))
  let b := imaginary (sin (half theta))
  four a 0 0 b
    0 a (-b) 0
    0 (-b) a 0
    b 0 0 a

/-- The rotation around `X ⊗ Z`, with `Z` on the first qubit. -/
def rzx (theta : R) : Mat R :=
  let a := real (cos (half theta))
  let b := imaginary (sin (half theta))
  four a 0 (-b) 0
    0 a 0 b
    (-b) 0 a 0
    0 b 0 a

def rzDiagonal (theta : R) : Buffer R :=
  #[Amplitude.polar 1 (half (-theta)), Amplitude.polar 1 (half theta)]

def rzzDiagonal (theta : R) : Buffer R :=
  let minus := Amplitude.polar 1 (half (-theta))
  let plus := Amplitude.polar 1 (half theta)
  #[minus, plus, plus, minus]

end Unitary
end MixedState
