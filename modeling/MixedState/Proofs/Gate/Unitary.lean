import MixedState.Proofs.Exact
import MixedState.Gate.Unitary
import MixedState.Proofs.Density.Kraus

/-!
# Gate matrices are unitary

The columns of each gate matrix have length one and are orthogonal, for any real
parameters, and the entries of each diagonal are phases.
-/

namespace MixedState

open Amplitude (ofReal unit)

def Mat.IsUnitary (u : Mat ℝ) : Prop :=
  forall a b, a < u.cols -> b < u.cols -> gram u.rows u.entry a b = if a = b then 1 else 0

theorem gram_conj (m : Nat) (u : Entries) (i j : Nat) : (gram m u i j).conj = gram m u j i := by
  unfold gram
  rw [Amplitude.conj_sum]
  apply Finset.sum_congr rfl
  intro r _
  rw [Amplitude.conj_mul, Amplitude.conj_conj, mul_comm]

theorem gram_two (a b c d : Amplitude ℝ) :
    gram 2 (Mat.two a b c d).entry 0 0 = a.conj * a + c.conj * c ∧
      gram 2 (Mat.two a b c d).entry 0 1 = a.conj * b + c.conj * d ∧
      gram 2 (Mat.two a b c d).entry 1 1 = b.conj * b + d.conj * d := by
  unfold gram
  rw [Finset.sum_range_succ, Finset.sum_range_one, Finset.sum_range_succ, Finset.sum_range_one,
    Finset.sum_range_succ, Finset.sum_range_one]
  exact ⟨rfl, rfl, rfl⟩

theorem isComplete_two {ks : List Entries} (hfirst : (ks.map fun k => gram 2 k 0 0).sum = 1)
    (hsecond : (ks.map fun k => gram 2 k 1 1).sum = 1)
    (hmixed : (ks.map fun k => gram 2 k 0 1).sum = 0) : IsComplete 2 ks := by
  have hmixed' : (ks.map fun k => gram 2 k 1 0).sum = 0 := by
    have hconj : (ks.map fun k => gram 2 k 1 0).sum = (ks.map fun k => gram 2 k 0 1).sum.conj := by
      clear hfirst hsecond hmixed
      induction ks with
      | nil =>
          exact Amplitude.conj_zero.symm
      | cons k rest ih =>
          rw [List.map_cons, List.map_cons, List.sum_cons, List.sum_cons, Amplitude.conj_add,
            gram_conj, ih]
    rw [hconj, hmixed, Amplitude.conj_zero]
  intro a b ha hb
  have hcases : (a = 0 ∨ a = 1) ∧ (b = 0 ∨ b = 1) := by
    omega
  rcases hcases with ⟨rfl | rfl, rfl | rfl⟩
  · exact hfirst
  · exact hmixed
  · exact hmixed'
  · exact hsecond

theorem Mat.isUnitary_two {a b c d : Amplitude ℝ} (hfirst : a.conj * a + c.conj * c = 1)
    (hsecond : b.conj * b + d.conj * d = 1) (hmixed : a.conj * b + c.conj * d = 0) :
    (Mat.two a b c d).IsUnitary := by
  rcases gram_two a b c d with ⟨hzero, hcross, hone⟩
  have hcomplete : IsComplete 2 [(Mat.two a b c d).entry] := by
    apply isComplete_two
    · rw [List.map_singleton, List.sum_singleton, hzero, hfirst]
    · rw [List.map_singleton, List.sum_singleton, hone, hsecond]
    · rw [List.map_singleton, List.sum_singleton, hcross, hmixed]
  intro i j hi hj
  have hsum := hcomplete i j hi hj
  rw [List.map_singleton, List.sum_singleton] at hsum
  exact hsum

noncomputable def fourDot (a b c d e f g h : Amplitude ℝ) : Amplitude ℝ :=
  a.conj * e + b.conj * f + c.conj * g + d.conj * h

theorem Mat.isUnitary_of_le {u : Mat ℝ}
    (h : forall i j, i ≤ j -> j < u.cols -> gram u.rows u.entry i j = if i = j then 1 else 0) :
    u.IsUnitary := by
  intro i j hi hj
  rcases Nat.le_total i j with hij | hji
  · exact h i j hij hj
  · rw [← gram_conj, h j i hji hi, Amplitude.conj_ite, Amplitude.conj_one, Amplitude.conj_zero]
    exact if_congr eq_comm rfl rfl

theorem Mat.isUnitary_four {a b c d e f g h i j k l m n o p : Amplitude ℝ}
    (h0 : fourDot a e i m a e i m = 1) (h1 : fourDot b f j n b f j n = 1)
    (h2 : fourDot c g k o c g k o = 1) (h3 : fourDot d h l p d h l p = 1)
    (h01 : fourDot a e i m b f j n = 0) (h02 : fourDot a e i m c g k o = 0)
    (h03 : fourDot a e i m d h l p = 0) (h12 : fourDot b f j n c g k o = 0)
    (h13 : fourDot b f j n d h l p = 0) (h23 : fourDot c g k o d h l p = 0) :
    (Mat.four a b c d e f g h i j k l m n o p).IsUnitary := by
  have hgram : forall x y, gram 4 (Mat.four a b c d e f g h i j k l m n o p).entry x y =
      fourDot ((Mat.four a b c d e f g h i j k l m n o p).entry 0 x)
        ((Mat.four a b c d e f g h i j k l m n o p).entry 1 x)
        ((Mat.four a b c d e f g h i j k l m n o p).entry 2 x)
        ((Mat.four a b c d e f g h i j k l m n o p).entry 3 x)
        ((Mat.four a b c d e f g h i j k l m n o p).entry 0 y)
        ((Mat.four a b c d e f g h i j k l m n o p).entry 1 y)
        ((Mat.four a b c d e f g h i j k l m n o p).entry 2 y)
        ((Mat.four a b c d e f g h i j k l m n o p).entry 3 y) := by
    intro x y
    unfold gram
    rw [Finset.sum_range_succ, Finset.sum_range_succ, Finset.sum_range_succ,
      Finset.sum_range_one]
    rfl
  apply Mat.isUnitary_of_le
  intro x y hxy hy
  change y < 4 at hy
  change gram 4 _ x y = _
  rw [hgram]
  have hcases : (x = 0 ∨ x = 1 ∨ x = 2 ∨ x = 3) ∧ (y = 0 ∨ y = 1 ∨ y = 2 ∨ y = 3) := by
    omega
  rcases hcases with ⟨rfl | rfl | rfl | rfl, rfl | rfl | rfl | rfl⟩
  · exact h0
  · exact h01
  · exact h02
  · exact h03
  · exact absurd hxy (by decide)
  · exact h1
  · exact h12
  · exact h13
  · exact absurd hxy (by decide)
  · exact absurd hxy (by decide)
  · exact h2
  · exact h23
  · exact absurd hxy (by decide)
  · exact absurd hxy (by decide)
  · exact absurd hxy (by decide)
  · exact h3

theorem Mat.IsUnitary.conj {u : Mat ℝ} (hu : u.IsUnitary) : u.conj.IsUnitary := by
  intro a b ha hb
  have hgram : gram u.rows u.conj.entry a b = (gram u.rows u.entry a b).conj := by
    unfold gram
    rw [Amplitude.conj_sum]
    apply Finset.sum_congr rfl
    intro r _
    rw [entry_conj, entry_conj, Amplitude.conj_mul]
  change gram u.rows u.conj.entry a b = _
  rw [hgram, hu a b ha hb, Amplitude.conj_ite, Amplitude.conj_one, Amplitude.conj_zero]

/-!
## Rotations
-/

/-- The first column of a rotation around an axis in the plane of X. -/
structure Amplitude.IsTurn (a b : Amplitude ℝ) : Prop where
  length : a.conj * a + b.conj * b = 1
  cross : a.conj * b + b.conj * a = 0

theorem Amplitude.isTurn_of_unit {c s : ℝ} (h : c * c + s * s = 1) :
    IsTurn (Unitary.real c) (Unitary.imaginary s) where
  length := by
    ext
    · simp [Unitary.real, Unitary.imaginary]
      linarith
    · simp [Unitary.real, Unitary.imaginary]
  cross := by
    ext
    · simp [Unitary.real, Unitary.imaginary]
    · simp [Unitary.real, Unitary.imaginary]
      ring

theorem cos_sin_unit (theta : ℝ) :
    Scalar.cos (Scalar.half theta) * Scalar.cos (Scalar.half theta) +
      Scalar.sin (Scalar.half theta) * Scalar.sin (Scalar.half theta) = 1 := by
  have h := Real.cos_sq_add_sin_sq (Scalar.half theta)
  change Real.cos _ * Real.cos _ + Real.sin _ * Real.sin _ = 1
  nlinarith

namespace Unitary

theorem imaginary_neg (x : ℝ) : imaginary (-x) = -imaginary x := by
  ext
  · exact neg_zero.symm
  · rfl

theorem isTurn_minus (theta : ℝ) :
    (real (Scalar.cos (Scalar.half theta))).IsTurn
      (imaginary (-(Scalar.sin (Scalar.half theta)))) :=
  Amplitude.isTurn_of_unit (by rw [neg_mul_neg]; exact cos_sin_unit theta)

theorem isTurn_plus (theta : ℝ) :
    (real (Scalar.cos (Scalar.half theta))).IsTurn
      (imaginary (Scalar.sin (Scalar.half theta))) :=
  Amplitude.isTurn_of_unit (cos_sin_unit theta)

theorem isUnitary_rx (theta : ℝ) : (rx theta).IsUnitary := by
  have h := isTurn_minus theta
  exact Mat.isUnitary_two h.length (by rw [add_comm]; exact h.length) h.cross

theorem isUnitary_ry (theta : ℝ) : (ry theta).IsUnitary := by
  have h := cos_sin_unit theta
  unfold ry
  dsimp only
  apply Mat.isUnitary_two
  · ext
    · simp [real]
      exact h
    · simp [real]
  · ext
    · simp [real]
      linarith
    · simp [real]
  · ext
    · simp [real]
      ring
    · simp [real]

/-!
## Gates on two qubits
-/

section Turns

variable {a b : Amplitude ℝ}

/-- In each of the two-qubit gates a column has the entries of a turn at two places. -/
theorem isUnitary_of_isTurn (h : a.IsTurn b) :
    (Mat.four a 0 0 b 0 a b 0 0 b a 0 b 0 0 a).IsUnitary ∧
      (Mat.four a 0 0 b 0 a (-b) 0 0 (-b) a 0 b 0 0 a).IsUnitary ∧
      (Mat.four a 0 (-b) 0 0 a 0 b (-b) 0 a 0 0 b 0 a).IsUnitary ∧
      (Mat.four 0 a 0 b a 0 (-b) 0 0 b 0 a (-b) 0 a 0).IsUnitary := by
  have hlength := h.length
  have hcross := h.cross
  have hlength' : b.conj * b + a.conj * a = 1 := by
    rw [add_comm]
    exact hlength
  have hturned : a.conj * -b + -b.conj * a = 0 := by
    rw [mul_neg, neg_mul, ← neg_add, hcross, neg_zero]
  refine ⟨?_, ?_, ?_, ?_⟩ <;> apply Mat.isUnitary_four <;>
    simp only [fourDot, Amplitude.conj_zero, Amplitude.conj_neg, zero_mul, mul_zero, zero_add,
      add_zero, neg_mul_neg, hlength, hlength', hcross, hturned]

end Turns

theorem isUnitary_rxx (theta : ℝ) : (rxx theta).IsUnitary :=
  (isUnitary_of_isTurn (isTurn_minus theta)).1

theorem isUnitary_ryy (theta : ℝ) : (ryy theta).IsUnitary :=
  (isUnitary_of_isTurn (isTurn_plus theta)).2.1

theorem isUnitary_rzx (theta : ℝ) : (rzx theta).IsUnitary :=
  (isUnitary_of_isTurn (isTurn_plus theta)).2.2.1

theorem half_eq (x : ℝ) : Scalar.half x = x / 2 :=
  congrArg (x / ·) (Scalar.ofNat_real 2)

theorem isUnitary_ecr : (ecr : Mat ℝ).IsUnitary := by
  have hroot : Real.sqrt (Scalar.half 1) * Real.sqrt (Scalar.half 1) = 1 / 2 := by
    rw [half_eq]
    exact Real.mul_self_sqrt (by norm_num)
  have hturn := Amplitude.isTurn_of_unit (c := Real.sqrt (Scalar.half 1))
    (s := Real.sqrt (Scalar.half 1)) (by rw [hroot]; norm_num)
  unfold ecr
  dsimp only
  rw [imaginary_neg]
  exact (isUnitary_of_isTurn hturn).2.2.2

/-!
## Gates on one qubit
-/

theorem conj_polar_mul_polar (r t x y : ℝ) :
    (Amplitude.polar r x).conj * Amplitude.polar t y = Amplitude.polar (r * t) (y - x) := by
  ext
  · change r * Real.cos x * (t * Real.cos y) - -(r * Real.sin x) * (t * Real.sin y) =
      r * t * Real.cos (y - x)
    rw [Real.cos_sub]
    ring
  · change r * Real.cos x * (t * Real.sin y) + -(r * Real.sin x) * (t * Real.cos y) =
      r * t * Real.sin (y - x)
    rw [Real.sin_sub]
    ring

theorem polar_zero (r : ℝ) : Amplitude.polar r 0 = real r := by
  ext
  · change r * Real.cos 0 = r
    rw [Real.cos_zero, mul_one]
  · change r * Real.sin 0 = 0
    rw [Real.sin_zero, mul_zero]

theorem real_add (x y : ℝ) : real x + real y = real (x + y) := by
  ext
  · rfl
  · exact add_zero 0

theorem isUnitary_u3 (theta phi lambda : ℝ) : (u3 theta phi lambda).IsUnitary := by
  have h := cos_sin_unit theta
  unfold u3
  dsimp only
  rw [← polar_zero (Scalar.cos (Scalar.half theta))]
  apply Mat.isUnitary_two
  · rw [conj_polar_mul_polar, conj_polar_mul_polar, sub_self, sub_self, polar_zero, polar_zero,
      real_add, h]
    rfl
  · rw [Amplitude.conj_neg, neg_mul_neg, conj_polar_mul_polar, conj_polar_mul_polar, sub_self,
      sub_self, polar_zero, polar_zero, real_add, add_comm, h]
    rfl
  · rw [mul_neg, conj_polar_mul_polar, conj_polar_mul_polar, sub_zero, add_sub_cancel_left,
      mul_comm (Scalar.cos (Scalar.half theta)), neg_add_cancel]

theorem conj_polar (r x : ℝ) : (Amplitude.polar r x).conj = Amplitude.polar r (-x) := by
  ext
  · change r * Real.cos x = r * Real.cos (-x)
    rw [Real.cos_neg]
  · change -(r * Real.sin x) = r * Real.sin (-x)
    rw [Real.sin_neg, mul_neg]

theorem isUnitary_r (theta phi : ℝ) : (r theta phi).IsUnitary := by
  have h := cos_sin_unit theta
  have hone : (imaginary (-1) : Amplitude ℝ).conj * imaginary (-1) = 1 := by
    ext
    · simp [imaginary]
    · simp [imaginary]
  have hconj : (imaginary (-1) : Amplitude ℝ).conj = -imaginary (-1) := by
    ext
    · exact neg_zero.symm
    · rfl
  have hreal : forall x : ℝ, (real x).conj = real x := Amplitude.conj_ofReal
  -- The square of the length of an entry off the diagonal.
  have hoff : forall x : ℝ,
      (imaginary (-1) * Amplitude.polar (Scalar.sin (Scalar.half theta)) x).conj
      * (imaginary (-1) * Amplitude.polar (Scalar.sin (Scalar.half theta)) x) =
        real (Scalar.sin (Scalar.half theta) * Scalar.sin (Scalar.half theta)) := by
    intro x
    rw [Amplitude.conj_mul, mul_mul_mul_comm, hone, one_mul, conj_polar_mul_polar, sub_self,
      polar_zero]
  have hon : (real (Scalar.cos (Scalar.half theta))).conj * real (Scalar.cos (Scalar.half theta)) =
      real (Scalar.cos (Scalar.half theta) * Scalar.cos (Scalar.half theta)) := by
    rw [← polar_zero, conj_polar_mul_polar, sub_self, polar_zero]
  apply Mat.isUnitary_two
  · rw [hon, hoff, real_add, h]
    rfl
  · rw [hon, hoff, real_add, add_comm, h]
    rfl
  · rw [Amplitude.conj_mul, hconj, hreal, conj_polar]
    ring

theorem isUnitary_sx : (sx : Mat ℝ).IsUnitary := by
  have hhalf : Scalar.half (1 : ℝ) = 1 / 2 := half_eq 1
  unfold sx
  rw [hhalf]
  apply Mat.isUnitary_two
  · ext
    · simp
      norm_num
    · simp
  · ext
    · simp
      norm_num
    · simp
  · ext
    · simp
    · simp

end Unitary

end MixedState
