import MixedState.Machine.Run
import MixedState.Proofs.Exact
import MixedState.Proofs.Machine.Local
import MixedState.Proofs.Machine.Physical
import MixedState.Proofs.Machine.Saves

/-!
# Instructions that are operators

Gates, matrices, diagonals, superoperators, Kraus channels and resets change the state of
a machine and nothing else, and each is local.
-/

namespace MixedState

def Kind.isOperator : Kind -> Bool
  | .gate | .matrix | .diagonal | .kraus | .superop | .reset => true
  | _ => false

/-- The operator of an instruction on qubits that may be others than its own. -/
noncomputable def Instruction.operate (op : Instruction ℝ) (m : Machine ℝ) (qs : List Nat) :
    Outcome (Machine ℝ) :=
  match op.kind with
  | .gate => m.applyGate { op with qubits := qs }
  | .matrix =>
      match op.matrices with
      | [] => refuse (.missing op.name .matrix)
      | u :: _ => m.applyMatrix qs u
  | .diagonal => m.applyDiagonal qs op.params
  | .superop =>
      match op.matrices with
      | [] => refuse (.missing op.name .superoperator)
      | map :: _ => m.applySuperop qs map
  | .kraus => m.applyKraus qs op.matrices
  | .reset => m.applyReset qs
  | _ => .ok m

variable {n : Nat} {op : Instruction ℝ} {e : Experiment ℝ}

theorem Instruction.isLocal_operate (hop : op.kind.isOperator = true) :
    Machine.IsLocal op.qubits.length op.IsPhysical op.operate := by
  cases hkind : op.kind with
  | gate =>
      refine ((Machine.isLocal_applyGate op).mono fun h => h.real hkind).congr ?_
      intro n m qs _ _
      unfold operate
      rw [hkind]
  | diagonal =>
      refine ((Machine.isLocal_applyDiagonal _ op.params).mono fun h => h.phases hkind).congr ?_
      intro n m qs _ _
      unfold operate
      rw [hkind]
  | kraus =>
      refine ((Machine.isLocal_applyKraus _ op.matrices).mono fun h => h.complete hkind).congr ?_
      intro n m qs _ _
      unfold operate
      rw [hkind]
  | reset =>
      refine ((Machine.isLocal_applyReset _).mono fun _ => trivial).congr ?_
      intro n m qs _ _
      unfold operate
      rw [hkind]
  | matrix =>
      cases hmatrices : op.matrices with
      | nil =>
          refine (Machine.isLocal_error (.refused (.missing op.name .matrix))).congr ?_
          intro n m qs _ _
          unfold operate
          rw [hkind, hmatrices]
          rfl
      | cons u rest =>
          refine ((Machine.isLocal_applyMatrix _ u).mono
            fun h => h.unitary hkind u rest hmatrices).congr ?_
          intro n m qs _ _
          unfold operate
          rw [hkind, hmatrices]
  | superop =>
      cases hmatrices : op.matrices with
      | nil =>
          refine (Machine.isLocal_error (.refused (.missing op.name .superoperator))).congr ?_
          intro n m qs _ _
          unfold operate
          rw [hkind, hmatrices]
          rfl
      | cons map rest =>
          refine ((Machine.isLocal_applySuperop _ map).mono
            fun h => absurd hkind h.known).congr ?_
          intro n m qs _ _
          unfold operate
          rw [hkind, hmatrices]
  | measure | barrier | bfunc | errorLocation | readoutError | setStatevec | setDensmat
  | saveExpval | saveExpvalVar | saveDensmat | saveProbs | saveProbsKet | saveAmpsSq | saveState
  | jump | mark | prepare | saveStatevec | saveAmps | setStabilizer =>
      rw [hkind] at hop
      cases hop

namespace Experiment

theorem perform_eq_evolve (hop : op.kind.isOperator = true) (final : Bool) :
    e.perform op final = e.evolve (op.operate e.machine op.qubits) := by
  have hself : forall qs, qs = op.qubits ->
      e.machine.applyGate { op with qubits := qs } = e.machine.applyGate op := by
    rintro qs rfl
    rfl
  unfold perform Instruction.operate
  dsimp only
  rw [hself _ rfl]
  cases hkind : op.kind with
  | gate | diagonal | kraus | reset =>
      rfl
  | matrix | superop =>
      cases op.matrices with
      | nil =>
          rfl
      | cons u rest =>
          rfl
  | measure | barrier | bfunc | errorLocation | readoutError | setStatevec | setDensmat
  | saveExpval | saveExpvalVar | saveDensmat | saveProbs | saveProbsKet | saveAmpsSq | saveState
  | jump | mark | prepare | saveStatevec | saveAmps | setStabilizer =>
      rw [hkind] at hop
      cases hop

theorem exists_apply_eq_evolve (hop : op.kind.isOperator = true) :
    exists u : Outcome Entries,
      (op.IsPhysical -> forall v, u = .ok v ->
        Kernel.IsChannel (twoPow op.qubits.length) v) ∧
      forall n (e : Experiment ℝ) final, e.machine.Hosts n op.qubits ->
        e.machine.classical.allows op = true ->
          e.apply op final = e.evolve (u.map (e.machine.transformed op.qubits)) := by
  rcases op.isLocal_operate hop with ⟨u, hphysical, hu⟩
  refine ⟨u, hphysical, ?_⟩
  intro n e final hosts hallows
  have hqs : forall q, q ∈ op.qubits -> q < e.machine.width := by
    rw [hosts.width]
    exact hosts.inside
  rw [apply_of_allows hallows hqs, perform_eq_evolve hop, hu n e.machine op.qubits hosts rfl]

end Experiment

end MixedState
