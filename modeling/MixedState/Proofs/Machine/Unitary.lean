import MixedState.Proofs.Exact
import MixedState.Proofs.Density.Moves
import MixedState.Proofs.Gate.Unitary
import MixedState.Proofs.Machine.Action

/-!
# Unitary operators

Every named gate is unitary when its parameters are real.  A matrix with a single row
stands for the diagonal with these entries.
-/

namespace MixedState

/-!
## Actions of gates
-/

def Action.IsUnitary : Action -> Prop
  | .sided s => s.IsUnitary
  | .diagonal entries => forall a, a ∈ entries -> a.IsPhase
  | .matrix u => u.IsUnitary
  | _ => True

theorem isPhase_imaginary : (⟨0, 1⟩ : Amplitude ℝ).IsPhase ∧ (⟨0, -1⟩ : Amplitude ℝ).IsPhase := by
  rw [Amplitude.isPhase_iff, Amplitude.isPhase_iff]
  norm_num

theorem isPhase_phaseParam {op : Instruction ℝ} (hreal : forall a, a ∈ op.params -> a.im = 0) :
    (Machine.phaseParam op).IsPhase := by
  unfold Machine.phaseParam
  split
  · next angle hangle =>
      exact (Amplitude.isPhase_exp_unit_mul_iff angle).mpr
        (hreal angle (Array.mem_of_getElem? hangle))
  · exact Amplitude.isPhase_one

theorem Gate.isUnitary_action {op : Instruction ℝ}
    (hreal : forall a, a ∈ op.params -> a.im = 0) (gate : Gate) :
    (gate.action op).IsUnitary := by
  have hone : (1 : Amplitude ℝ).IsPhase := Amplitude.isPhase_one
  -- The gates on one qubit that are diagonal differ in their second factor only.
  have hpair : forall factor : Amplitude ℝ, factor.IsPhase ->
      (Action.diagonal #[1, factor]).IsUnitary := by
    intro factor hfactor a ha
    have hcases : a = 1 ∨ a = factor := by simpa using ha
    rcases hcases with rfl | rfl
    · exact hone
    · exact hfactor
  cases gate with
  | id | x | cx | ccx | y | cy | swap | pauli =>
      exact True.intro
  | cz =>
      exact hone.neg
  | cp =>
      exact isPhase_phaseParam hreal
  | z =>
      exact hpair _ hone.neg
  | s =>
      exact hpair _ isPhase_imaginary.1
  | sdg =>
      exact hpair _ isPhase_imaginary.2
  | t | tdg =>
      exact hpair _ (Amplitude.isPhase_polar _)
  | u1 =>
      exact hpair _ (isPhase_phaseParam hreal)
  | rz | rzz =>
      intro a ha
      simp only [Unitary.rzDiagonal, Unitary.rzzDiagonal, List.mem_toArray, List.mem_cons,
        List.not_mem_nil, or_false] at ha
      rcases ha with rfl | rfl | rfl | rfl <;> exact Amplitude.isPhase_polar _
  | h | u2 | u3 =>
      exact Unitary.isUnitary_u3 _ _ _
  | sx =>
      exact Unitary.isUnitary_sx
  | sxdg =>
      exact Unitary.isUnitary_sx.conj
  | r =>
      exact Unitary.isUnitary_r _ _
  | rx =>
      exact Unitary.isUnitary_rx _
  | ry =>
      exact Unitary.isUnitary_ry _
  | rxx =>
      exact Unitary.isUnitary_rxx _
  | ryy =>
      exact Unitary.isUnitary_ryy _
  | rzx =>
      exact Unitary.isUnitary_rzx _
  | ecr =>
      exact Unitary.isUnitary_ecr

/-!
## Matrices
-/

/-- A unitary, or a single row of phases, which stands for a diagonal. -/
def Mat.ActsUnitary (u : Mat ℝ) : Prop :=
  u.IsUnitary ∨ u.rows = 1 ∧ forall a, a ∈ u.entries -> a.IsPhase

theorem Mat.isPhase_of_row {u : Mat ℝ} (hu : u.IsUnitary) (hrows : u.rows = 1) :
    forall a, a ∈ u.entries -> a.IsPhase := by
  intro a ha
  rcases Array.mem_iff_getElem.mp ha with ⟨c, hc, hentry⟩
  have hcols : c < u.cols := by
    have hsize := u.size_entries
    rw [hrows, Nat.one_mul] at hsize
    omega
  have hgram := hu c c hcols hcols
  unfold gram at hgram
  rw [hrows, Finset.sum_range_one, if_pos rfl] at hgram
  have hfirst : u.entry 0 c = a := by
    change u.entries.entry (0 * u.cols + c) = a
    rw [Nat.zero_mul, Nat.zero_add, ← hentry]
    simp [Buffer.entry, Array.getD, hc]
  rw [hfirst] at hgram
  unfold Amplitude.IsPhase
  rw [mul_comm]
  exact hgram

theorem Mat.ActsUnitary.isPhase {u : Mat ℝ} (hu : u.ActsUnitary) (hrows : u.rows = 1) :
    forall a, a ∈ u.entries -> a.IsPhase := by
  rcases hu with hunitary | ⟨_, hphases⟩
  · exact Mat.isPhase_of_row hunitary hrows
  · exact hphases

end MixedState
