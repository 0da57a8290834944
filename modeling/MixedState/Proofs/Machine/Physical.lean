import MixedState.Proofs.Exact
import MixedState.Proofs.Machine.Density
import MixedState.Proofs.Machine.Start
import MixedState.Proofs.Noise.Model

/-!
# Runs keep density matrices

A run of physical instructions from the zero state holds a density matrix at every
time, whatever is drawn, whichever conditions are met, and also where it fails.
-/

namespace MixedState

structure Instruction.IsPhysical (op : Instruction ℝ) : Prop where
  nodup : op.qubits.Nodup
  /-- No superoperator, since nothing keeps its entries from being any. -/
  known : op.kind ≠ .superop
  real : op.kind = .gate -> forall a, a ∈ op.params -> a.im = 0
  unitary : op.kind = .matrix -> forall u rest, op.matrices = u :: rest -> u.ActsUnitary
  phases : op.kind = .diagonal -> forall a, a ∈ op.params -> a.IsPhase
  complete : op.kind = .kraus ->
    IsComplete (twoPow op.qubits.length) (op.matrices.map Mat.entry)
  unit : op.kind = .setStatevec ->
    ∑ i ∈ Finset.range op.params.size, op.params.entry i * (op.params.entry i).conj = 1
  density : op.kind = .setDensmat -> forall u rest, op.matrices = u :: rest ->
    IsDensity u.rows u.entry

def Instruction.IsNoise (op : Instruction ℝ) : Prop :=
  exists (model : NoiseModel ℝ) (qubit : Nat) (plain : Instruction ℝ),
    0 ≤ model.strength ∧ model.strength ≤ 1 ∧ model.toKraus qubit = .ok plain ∧
      op = { plain with condition := op.condition }

theorem Instruction.IsNoise.isPhysical {op : Instruction ℝ} (h : op.IsNoise) :
    op.IsPhysical := by
  rcases h with ⟨model, qubit, plain, hlow, hhigh, hkraus, hop⟩
  unfold NoiseModel.toKraus at hkraus
  split at hkraus
  · next operators hoperators =>
      rcases bind_eq_ok_iff.mp hkraus with ⟨_, _, hkraus⟩
      rcases bind_eq_ok_iff.mp hkraus with ⟨_, _, hkraus⟩
      cases hkraus
      have hcomplete := NoiseModel.isComplete_krausOperators hlow hhigh hoperators
      rw [hop]
      refine ⟨List.nodup_singleton qubit, ?_, ?_, ?_, ?_, fun _ => hcomplete, ?_, ?_⟩
      all_goals
        intro hkind
        cases hkind
  · exact absurd hkraus refuse_ne_ok

namespace Experiment

variable {n : Nat} {e : Experiment ℝ} {op : Instruction ℝ}

/-!
## Steps
-/

theorem isDensity_evolve (h : e.machine.IsDensity n) {result : Outcome (Machine ℝ)}
    (hresult : forall m, result = .ok m -> m.IsDensity n) :
    (e.evolve result).2.machine.IsDensity n := by
  cases result with
  | error fault =>
      exact h
  | ok m =>
      exact hresult m rfl

theorem isDensity_draw (h : e.machine.IsDensity n) {result : Outcome (Machine ℝ × Source)}
    (hresult : forall m source, result = .ok (m, source) -> m.IsDensity n) :
    (e.draw result).2.machine.IsDensity n := by
  cases result with
  | error fault =>
      exact h
  | ok drawn =>
      exact hresult drawn.1 drawn.2 rfl

theorem isDensity_perform (h : e.machine.IsDensity n) (hn : 4 * n < wordBits)
    (hop : op.IsPhysical) (hqs : forall q, q ∈ op.qubits -> q < n) :
    (e.perform op false).2.machine.IsDensity n := by
  unfold perform
  dsimp only
  cases hkind : op.kind with
  | barrier | errorLocation | mark | jump | prepare | saveStatevec | saveAmps | setStabilizer =>
      exact h
  | superop =>
      exact absurd hkind hop.known
  | saveExpval | saveExpvalVar | saveProbs | saveProbsKet | saveAmpsSq =>
      dsimp only
      rw [machine_file]
      exact h
  | saveState =>
      dsimp only
      rw [machine_saveState]
      exact h
  | saveDensmat =>
      dsimp only
      rw [machine_saveDensmat]
      exact h
  | reset =>
      exact isDensity_evolve h fun _ =>
        h.ofLocal hn hop.nodup hqs (Machine.isLocal_applyReset _) trivial
  | gate =>
      exact isDensity_evolve h fun _ =>
        h.ofLocal hn hop.nodup hqs (Machine.isLocal_applyGate op) (hop.real hkind)
  | diagonal =>
      exact isDensity_evolve h fun _ =>
        h.ofLocal hn hop.nodup hqs (Machine.isLocal_applyDiagonal _ _) (hop.phases hkind)
  | kraus =>
      exact isDensity_evolve h fun _ =>
        h.ofLocal hn hop.nodup hqs (Machine.isLocal_applyKraus _ _) (hop.complete hkind)
  | setStatevec =>
      exact isDensity_evolve h fun _ => h.setVector (hop.unit hkind)
  | measure =>
      exact isDensity_draw h fun _ _ => h.measure hn hqs
  | matrix =>
      dsimp only
      cases hmatrices : op.matrices with
      | nil =>
          exact h
      | cons u rest =>
          exact isDensity_evolve h fun _ => h.ofLocal hn hop.nodup hqs
            (Machine.isLocal_applyMatrix _ u) (hop.unitary hkind u rest hmatrices)
  | setDensmat =>
      cases hmatrices : op.matrices with
      | nil =>
          refine isDensity_evolve h fun m hstep => ?_
          unfold Machine.setMatrix at hstep
          rcases bind_eq_ok_iff.mp hstep with ⟨_, _, hstep⟩
          rw [hmatrices] at hstep
          exact absurd hstep refuse_ne_ok
      | cons u rest =>
          exact isDensity_evolve h fun _ =>
            h.setMatrix hmatrices (hop.density hkind u rest hmatrices)
  | bfunc =>
      refine isDensity_evolve h fun m hstep => ?_
      cases hbits : e.machine.classical.applyBfunc op with
      | error fault =>
          rw [hbits] at hstep
          cases hstep
      | ok bits =>
          rw [hbits] at hstep
          cases hstep
          exact h.withClassical bits
  | readoutError =>
      refine isDensity_draw h fun m source hstep => ?_
      cases hbits : e.machine.classical.applyReadout op e.source with
      | error fault =>
          rw [hbits] at hstep
          cases hstep
      | ok drawn =>
          rw [hbits] at hstep
          cases hstep
          exact h.withClassical drawn.1

theorem isDensity_apply (h : e.machine.IsDensity n) (hn : 4 * n < wordBits)
    (hop : op.IsPhysical) : (e.apply op false).2.machine.IsDensity n := by
  unfold apply
  split
  · exact h
  · cases hfind : op.qubits.find? fun q => e.machine.width ≤ q with
    | some qubit =>
        exact h
    | none =>
        refine isDensity_perform h hn hop fun q hq => ?_
        have hout := List.find?_eq_none.mp hfind q hq
        rw [h.width] at hout
        simpa using hout

theorem isDensity_applyAll {ops : List (Instruction ℝ)} (h : e.machine.IsDensity n)
    (hn : 4 * n < wordBits) (hops : forall op, op ∈ ops -> op.IsPhysical) :
    (e.applyAll ops false).2.machine.IsDensity n := by
  -- Each instruction starts from a density matrix again.
  induction ops generalizing e with
  | nil =>
      exact h
  | cons op rest ih =>
      rcases List.forall_mem_cons.mp hops with ⟨hop, hrest⟩
      have hstep := isDensity_apply h hn hop
      unfold applyAll
      rw [Bool.false_and]
      cases happly : e.apply op false with
      | mk outcome middle =>
          rw [happly] at hstep
          cases outcome with
          | error fault =>
              exact hstep
          | ok done =>
              exact ih hstep hrest

end Experiment

/-!
## From the zero state
-/

theorem Store.isDensity_zeroState (n : Nat) : (Store.zeroState n : Buffer ℝ).IsDensity n := by
  have hunit : ∑ i ∈ Finset.range (twoPow n), (if i = 0 then (1 : Amplitude ℝ) else 0) *
      (if i = 0 then (1 : Amplitude ℝ) else 0).conj = 1 := by
    refine (Finset.sum_congr rfl fun i _ => ?_).trans
      (sum_range_single (twoPow_pos n) fun _ => (1 : Amplitude ℝ))
    by_cases hi : i = 0
    · simp [hi]
    · simp [hi]
  refine ⟨Buffer.size_tabulate _ _, (isDensity_outer hunit).congr ?_⟩
  intro r c hr hc
  unfold Store.zeroState
  rw [Buffer.toEntries_tabulate _ hr hc]
  simp only [Basis.cell_eq_zero_iff]
  by_cases hr0 : r = 0
  · by_cases hc0 : c = 0
    · simp [hr0, hc0]
    · simp [hr0, hc0]
  · simp [hr0]

theorem Machine.start_isDensity {n : Nat} {m : Machine ℝ} (hn : 4 * n < wordBits)
    (hchunk : m.store.chunk = 0) :
    exists started, m.start n = .ok started ∧ started.IsDensity n := by
  refine ⟨_, m.start_of_lt hn, rfl, rfl, ?_⟩
  change (m.store.started n (twoPow (2 * n))).data.IsDensity n
  rw [Store.data_started, if_pos hchunk]
  exact Store.isDensity_zeroState n

/-- However far a run of physical instructions and noise channels gets from the zero state,
the store holds a density matrix. -/
theorem Experiment.applyAll_isDensity {N : Nat} {m : Machine ℝ} (hN : 4 * N < wordBits)
    (hchunk : m.store.chunk = 0) :
    exists started, m.start N = .ok started ∧
      forall (classical : Classical) (archive : Archive ℝ) (source : Source)
        (ops : List (Instruction ℝ)),
        (forall op, op ∈ ops -> op.IsPhysical ∨ op.IsNoise) ->
        (Experiment.applyAll
          { machine := { started with classical := classical }
            archive := archive
            source := source } ops false).2.machine.store.IsDensity N := by
  rcases Machine.start_isDensity hN hchunk with ⟨started, hstart, hdensity⟩
  refine ⟨started, hstart, ?_⟩
  intro classical archive source ops hops
  have hphysical : forall op, op ∈ ops -> op.IsPhysical := fun op hop =>
    (hops op hop).elim id Instruction.IsNoise.isPhysical
  exact (Experiment.isDensity_applyAll (hdensity.withClassical classical) hN hphysical).store

theorem Experiment.applyAll_isDensity_plus :
    exists (plain : Instruction ℝ) (started : Machine ℝ),
      (NoiseModel.mk .phaseDamping (1 / 2)).toKraus 0 = .ok plain ∧
      (Machine.empty : Machine ℝ).start 1 = .ok started ∧
      (Experiment.applyAll ⟨started, .empty, .ofSeed 0⟩
        [Instruction.gate "h" [0] [], plain, Instruction.measure [0] [0]]
          false).2.machine.store.IsDensity 1 := by
  rcases applyAll_isDensity (N := 1) (m := Machine.empty) (by decide) rfl with
    ⟨started, hstart, hrun⟩
  refine ⟨_, started, rfl, hstart, ?_⟩
  refine hrun started.classical .empty (.ofSeed 0) _ ?_
  intro op hop
  simp only [List.mem_cons, List.not_mem_nil, or_false] at hop
  rcases hop with rfl | rfl | rfl
  · left
    refine ⟨List.nodup_singleton 0, by decide, fun _ a ha => ?_, ?_, ?_, ?_, ?_, ?_⟩
    · exact absurd ha (by simp [Instruction.gate])
    all_goals
      intro hkind
      cases hkind
  · right
    exact ⟨⟨.phaseDamping, 1 / 2⟩, 0, _, by norm_num, by norm_num, rfl, rfl⟩
  · left
    refine ⟨List.nodup_singleton 0, by decide, ?_, ?_, ?_, ?_, ?_, ?_⟩
    all_goals
      intro hkind
      cases hkind

end MixedState
