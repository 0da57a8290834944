import Mathlib.Algebra.BigOperators.Ring.Finset
import Mathlib.Analysis.SpecialFunctions.Trigonometric.Basic
import Mathlib.Tactic.LinearCombination
import MixedState.Matrix

/-!
# Exact scalars

Laws are stated over the real numbers with the exact square root, sine, cosine
and exponential.  Over them the amplitudes form a commutative ring, conjugation
is a ring homomorphism, and sums added from the left are finite sums.
-/

namespace MixedState

noncomputable instance : Scalar ℝ where
  ofNat n := n
  sqrt := Real.sqrt
  sin := Real.sin
  cos := Real.cos
  exp := Real.exp
  pi := Real.pi
  lt x y := decide (x < y)
  le x y := decide (x ≤ y)
  below x := x
  isFinite _ := true

theorem Scalar.ofNat_real (n : Nat) [n.AtLeastTwo] :
    (Scalar.ofNat (OfNat.ofNat n) : ℝ) = OfNat.ofNat n :=
  Nat.cast_ofNat

/-!
## Sums
-/

theorem sumBelow_eq_sum {M : Type} [AddCommMonoid M] (n : Nat) (f : Nat -> M) :
    sumBelow n f = ∑ i ∈ Finset.range n, f i := by
  induction n with
  | zero =>
      simp
  | succ n ih =>
      rw [sumBelow_succ, Finset.sum_range_succ, ih]

theorem sum_range_mul {M : Type} [AddCommMonoid M] (d m : Nat) (f : Nat -> Nat -> M) :
    ∑ j ∈ Finset.range (d * m), f (j % d) (j / d) =
      ∑ b ∈ Finset.range m, ∑ a ∈ Finset.range d, f a b := by
  induction m with
  | zero =>
      simp
  | succ m ih =>
      rw [Nat.mul_succ, Finset.sum_range_add, ih, Finset.sum_range_succ]
      congr 1
      apply Finset.sum_congr rfl
      intro a ha
      have had : a < d := Finset.mem_range.mp ha
      rw [Nat.mul_add_mod, Nat.mod_eq_of_lt had, Nat.mul_add_div (by omega),
        Nat.div_eq_of_lt had, Nat.add_zero]

theorem sum_range_single {M : Type} [AddCommMonoid M] {n i : Nat} (hi : i < n)
    (f : Nat -> M) :
    ∑ j ∈ Finset.range n, (if j = i then f j else 0) = f i := by
  rw [Finset.sum_ite_eq' (Finset.range n) i f, if_pos (Finset.mem_range.mpr hi)]

namespace Amplitude

/-!
## The ring of amplitudes
-/

noncomputable instance : CommRing (Amplitude ℝ) where
  add_assoc _ _ _ := by ext <;> simp <;> ring
  zero_add _ := by ext <;> simp
  add_zero _ := by ext <;> simp
  add_comm _ _ := by ext <;> simp <;> ring
  neg_add_cancel _ := by ext <;> simp
  mul_assoc _ _ _ := by ext <;> simp <;> ring
  one_mul _ := by ext <;> simp
  mul_one _ := by ext <;> simp
  left_distrib _ _ _ := by ext <;> simp <;> ring
  right_distrib _ _ _ := by ext <;> simp <;> ring
  zero_mul _ := by ext <;> simp
  mul_zero _ := by ext <;> simp
  mul_comm _ _ := by ext <;> simp <;> ring
  nsmul := nsmulRec
  zsmul := zsmulRec

noncomputable def conjHom : Amplitude ℝ →+* Amplitude ℝ where
  toFun := conj
  map_one' := by ext <;> simp
  map_mul' a b := by
    ext
    · simp
    · simp
      ring
  map_zero' := by ext <;> simp
  map_add' a b := by
    ext
    · simp
    · simp
      ring

noncomputable def reHom : Amplitude ℝ →+ ℝ where
  toFun := re
  map_zero' := rfl
  map_add' _ _ := rfl

noncomputable def imHom : Amplitude ℝ →+ ℝ where
  toFun := im
  map_zero' := rfl
  map_add' _ _ := rfl

@[simp] theorem conj_zero : conj (0 : Amplitude ℝ) = 0 := map_zero conjHom

@[simp] theorem conj_one : conj (1 : Amplitude ℝ) = 1 := map_one conjHom

@[simp] theorem conj_add (a b : Amplitude ℝ) : conj (a + b) = conj a + conj b :=
  map_add conjHom a b

@[simp] theorem conj_mul (a b : Amplitude ℝ) : conj (a * b) = conj a * conj b :=
  map_mul conjHom a b

@[simp] theorem conj_neg (a : Amplitude ℝ) : conj (-a) = -conj a := map_neg conjHom a

@[simp] theorem conj_conj (a : Amplitude ℝ) : conj (conj a) = a := by
  ext <;> simp

theorem conj_sum {ι : Type} (s : Finset ι) (f : ι -> Amplitude ℝ) :
    conj (∑ i ∈ s, f i) = ∑ i ∈ s, conj (f i) :=
  map_sum conjHom f s

theorem conj_ite (p : Prop) [Decidable p] (a b : Amplitude ℝ) :
    conj (if p then a else b) = if p then conj a else conj b :=
  apply_ite conj p a b

theorem re_sum {ι : Type} (s : Finset ι) (f : ι -> Amplitude ℝ) :
    (∑ i ∈ s, f i).re = ∑ i ∈ s, (f i).re :=
  map_sum reHom f s

theorem im_sum {ι : Type} (s : Finset ι) (f : ι -> Amplitude ℝ) :
    (∑ i ∈ s, f i).im = ∑ i ∈ s, (f i).im :=
  map_sum imHom f s

@[simp] theorem ofReal_re (x : ℝ) : (ofReal x).re = x := rfl

@[simp] theorem ofReal_im (x : ℝ) : (ofReal x).im = 0 := rfl

@[simp] theorem unit_re : (unit : Amplitude ℝ).re = 0 := rfl

@[simp] theorem unit_im : (unit : Amplitude ℝ).im = 1 := rfl

@[simp] theorem conj_ofReal (x : ℝ) : conj (ofReal x) = ofReal x := by
  ext <;> simp

@[simp] theorem conj_unit : conj (unit : Amplitude ℝ) = -unit := by
  ext <;> simp

instance : NoZeroDivisors (Amplitude ℝ) where
  eq_zero_or_eq_zero_of_mul_eq_zero := by
    intro a b h
    have hre : a.re * b.re - a.im * b.im = 0 := congrArg re h
    have him : a.re * b.im + a.im * b.re = 0 := congrArg im h
    have hnorm : (a.re * a.re + a.im * a.im) * (b.re * b.re + b.im * b.im) = 0 := by
      linear_combination (a.re * b.re - a.im * b.im) * hre + (a.re * b.im + a.im * b.re) * him
    rcases mul_eq_zero.mp hnorm with ha | hb
    · rcases mul_self_add_mul_self_eq_zero.mp ha with ⟨hzero, hzero'⟩
      exact Or.inl (Amplitude.ext hzero hzero')
    · rcases mul_self_add_mul_self_eq_zero.mp hb with ⟨hzero, hzero'⟩
      exact Or.inr (Amplitude.ext hzero hzero')

/-!
## Phases
-/

def IsPhase (a : Amplitude ℝ) : Prop :=
  a * conj a = 1

theorem isPhase_iff (a : Amplitude ℝ) : IsPhase a ↔ a.re * a.re + a.im * a.im = 1 := by
  constructor
  · intro h
    have hre := congrArg re h
    simp at hre
    linarith
  · intro h
    ext
    · simp
      linarith
    · simp
      ring

theorem IsPhase.conj_mul {a : Amplitude ℝ} (h : IsPhase a) : conj a * a = 1 := by
  rw [mul_comm]
  exact h

theorem isPhase_one : IsPhase (1 : Amplitude ℝ) := by
  simp [IsPhase]

theorem IsPhase.neg {a : Amplitude ℝ} (h : IsPhase a) : IsPhase (-a) := by
  unfold IsPhase at *
  rw [conj_neg, neg_mul_neg, h]

theorem isPhase_polar (angle : ℝ) : IsPhase (polar 1 angle) := by
  rw [isPhase_iff]
  have h := Real.sin_sq_add_cos_sq angle
  change 1 * Real.cos angle * (1 * Real.cos angle)
    + 1 * Real.sin angle * (1 * Real.sin angle) = 1
  nlinarith

theorem isPhase_exp_unit_mul_iff (angle : Amplitude ℝ) :
    IsPhase (exp (unit * angle)) ↔ angle.im = 0 := by
  have h := Real.sin_sq_add_cos_sq (unit * angle).im
  have hre : (unit * angle).re = -angle.im := by simp
  have hlen : Real.exp (-angle.im) * Real.exp (-angle.im) =
      (exp (unit * angle)).re * (exp (unit * angle)).re
        + (exp (unit * angle)).im * (exp (unit * angle)).im := by
    change _ = Real.exp (unit * angle).re * Real.cos (unit * angle).im
        * (Real.exp (unit * angle).re * Real.cos (unit * angle).im)
      + Real.exp (unit * angle).re * Real.sin (unit * angle).im
        * (Real.exp (unit * angle).re * Real.sin (unit * angle).im)
    rw [hre]
    linear_combination (-Real.exp (-angle.im) * Real.exp (-angle.im)) * h
  rw [isPhase_iff, ← hlen, ← Real.exp_add, Real.exp_eq_one_iff]
  constructor
  · intro hsum
    linarith
  · intro him
    rw [him]
    norm_num

end Amplitude

end MixedState
