import MixedState.Proofs.Exact
import MixedState.Noise.Model
import MixedState.Proofs.Gate.Unitary

/-!
# Noise channels are complete

For a strength between zero and one, the matrices of each noise channel satisfy
`Σ K† K = 1`.
-/

namespace MixedState

namespace NoiseModel

theorem isComplete_krausOperators {model : NoiseModel ℝ} {operators : List (Mat ℝ)}
    (hlow : 0 ≤ model.strength) (hhigh : model.strength ≤ 1)
    (h : model.krausOperators? = some operators) :
    IsComplete 2 (operators.map Mat.entry) := by
  rcases model with ⟨kind, s⟩
  have hkeep : Scalar.sqrt (1 - s) * Scalar.sqrt (1 - s) = 1 - s :=
    Real.mul_self_sqrt (sub_nonneg.mpr hhigh)
  have hmove : Scalar.sqrt s * Scalar.sqrt s = s := Real.mul_self_sqrt hlow
  cases kind with
  | phaseDamping | amplitudeDamping | bitFlip | phaseFlip =>
      cases h
      generalize (Scalar.sqrt (1 - s) : ℝ) = keep at *
      generalize (Scalar.sqrt s : ℝ) = move at *
      apply isComplete_two
      all_goals
        simp only [List.map_cons, List.map_nil, List.sum_cons, List.sum_nil, gram_two]
        ext
        · simp <;> linarith
        · simp
  | depolarizing =>
      have hstay : Scalar.sqrt (1 - 3 / 4 * s) * Scalar.sqrt (1 - 3 / 4 * s) = 1 - 3 / 4 * s :=
        Real.mul_self_sqrt (by change s ≤ 1 at hhigh; linarith)
      have hturn : Scalar.sqrt (s / 4) * Scalar.sqrt (s / 4) = s / 4 :=
        Real.mul_self_sqrt (by change 0 ≤ s at hlow; linarith)
      unfold krausOperators? at h
      dsimp only at h
      rw [Scalar.ofNat_real 3, Scalar.ofNat_real 4] at h
      cases h
      generalize (Scalar.sqrt (1 - 3 / 4 * s) : ℝ) = stay at *
      generalize (Scalar.sqrt (s / 4) : ℝ) = turn at *
      apply isComplete_two
      all_goals
        simp only [List.map_cons, List.map_nil, List.sum_cons, List.sum_nil, gram_two]
        ext
        · simp <;> linarith
        · simp
  | readoutError =>
      cases h

end NoiseModel

end MixedState
