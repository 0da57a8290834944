import MixedState.Proofs.Machine.Operators
import MixedState.Proofs.Machine.Rewriting
import MixedState.Proofs.Machine.Saves

/-!
# Instructions keep the shape of a machine

An instruction that takes no state out, whether it succeeds or fails, leaves as many qubits
and entries as there were, and the place of the chunk.
-/

namespace MixedState

variable {R : Type}

/-- The machine holds all entries of chunk `k` of `L` qubits, of a register of `N`. -/
structure Machine.HasShape (N L k : Nat) (m : Machine R) : Prop where
  width : m.width = N
  store : m.store.HasShape L (twoPow (2 * L))
  chunk : m.store.chunk = k

variable {N L k : Nat}

/-!
## Loading
-/

def Store.Loads (s t : Store R) : Prop :=
  exists data : Buffer R, data.size = twoPow s.qubits * twoPow s.qubits ∧
    t = { s with data := data }

theorem Store.ensures_loadVector [Scalar R] {s : Store R} (v : Buffer R) :
    Ensures s.Loads (s.loadVector v) := by
  apply (ensures_checkedShift s.qubits).bind
  rintro _ rfl
  apply (ensures_checkedMul _ _).bind
  rintro _ rfl
  split
  · next hvector =>
      refine .ok ⟨v.outer, ?_, rfl⟩
      unfold Buffer.outer
      rw [Buffer.size_tabulate, hvector]
  · split
    · next hmatrix =>
        exact .ok ⟨v, hmatrix, rfl⟩
    · exact .error _

theorem Store.ensures_loadMatrix [Scalar R] {s : Store R} (u : Mat R) :
    Ensures s.Loads (s.loadMatrix u) := by
  apply (ensures_checkedShift s.qubits).bind
  rintro _ rfl
  split
  · next hshape =>
      rcases Mat.hasShape_iff.mp hshape with ⟨hrows, hcols⟩
      refine .ok ⟨u.columns, ?_, rfl⟩
      rw [Mat.size_columns, hrows, hcols]
  · exact Ensures.after fun _ => .error _

/-!
## Machines
-/

namespace Machine.HasShape

variable {m m' : Machine R}

theorem rewrites (h : m.HasShape N L k) (hm : m.Rewrites m') : m'.HasShape N L k := by
  rcases hm with ⟨_, ⟨data, hdata, rfl⟩, rfl⟩
  exact ⟨h.width, ⟨h.store.qubits, hdata.trans h.store.size_data⟩, h.chunk⟩

theorem withBits (h : m.HasShape N L k) (bits : Classical) :
    Machine.HasShape N L k { m with classical := bits } :=
  ⟨h.width, h.store, h.chunk⟩

theorem isFull (h : m.HasShape N L k) : m.store.IsFull := by
  unfold Store.IsFull
  rw [h.store.qubits, h.store.size_data, twoPow_two_mul]

theorem isSplit (h : m.HasShape N L k) : m.isSplit = decide (L < N) := by
  unfold Machine.isSplit Place.isSplit Machine.place
  rw [h.width, h.store.qubits]

theorem whole (h : m.HasShape N N k) : m.isSplit = false := by
  rw [h.isSplit]
  exact decide_eq_false (Nat.lt_irrefl N)

theorem update {f : Store R -> Outcome (Store R)} (h : m.HasShape N L k)
    (hf : Ensures m.store.Loads (f m.store)) :
    Ensures (Machine.HasShape N L k) (m.update f) := by
  apply hf.bind
  rintro _ ⟨data, hdata, rfl⟩
  refine .ok ⟨h.width, ⟨h.store.qubits, ?_⟩, h.chunk⟩
  rw [twoPow_two_mul, ← h.store.qubits]
  exact hdata

variable [Scalar R]

theorem setVector (h : m.HasShape N L k) (op : Instruction R) :
    Ensures (Machine.HasShape N L k) (m.setVector op) := by
  apply Ensures.after
  intro _
  apply Ensures.after
  intro dim
  split
  · exact .error _
  · exact h.update (Store.ensures_loadVector op.params)

theorem setMatrix (h : m.HasShape N L k) (op : Instruction R) :
    Ensures (Machine.HasShape N L k) (m.setMatrix op) := by
  apply Ensures.after
  intro _
  cases op.matrices with
  | nil =>
      exact .error _
  | cons matrix rest =>
      exact h.update (Store.ensures_loadMatrix matrix)

theorem measure (h : m.HasShape N L k) (qubits memory registers : List Nat) (source : Source) :
    Ensures (fun p : Machine R × Source => p.1.HasShape N L k)
      (m.measure qubits memory registers source) := by
  apply Ensures.after
  rintro ⟨⟨outcome, probability⟩, drawn⟩
  apply (ensures_project qubits outcome probability).bind
  intro projected hprojected
  apply Ensures.after
  intro bits
  exact .ok ((h.rewrites hprojected).withBits bits)

end Machine.HasShape

/-!
## Instructions
-/

namespace Experiment

variable {e : Experiment R} {op : Instruction R}

theorem hasShape_evolve {result : Outcome (Machine R)} (h : e.machine.HasShape N L k)
    (hresult : Ensures (Machine.HasShape N L k) result) :
    (e.evolve result).2.machine.HasShape N L k := by
  cases hresult with
  | ok hm =>
      exact hm
  | error fault =>
      exact h

theorem hasShape_evolve_of_rewrites {result : Outcome (Machine R)}
    (h : e.machine.HasShape N L k) (hresult : Ensures e.machine.Rewrites result) :
    (e.evolve result).2.machine.HasShape N L k :=
  hasShape_evolve h (hresult.mono fun _ => h.rewrites)

theorem hasShape_draw {result : Outcome (Machine R × Source)} (h : e.machine.HasShape N L k)
    (hresult : Ensures (fun p : Machine R × Source => p.1.HasShape N L k) result) :
    (e.draw result).2.machine.HasShape N L k := by
  cases hresult with
  | ok hm =>
      exact hm
  | error fault =>
      exact h

variable [Scalar R]

theorem hasShape_perform (h : e.machine.HasShape N L k) (op : Instruction R) :
    (e.perform op false).2.machine.HasShape N L k := by
  unfold perform
  dsimp only
  cases op.kind with
  | barrier | errorLocation | mark | jump | prepare | saveStatevec | saveAmps | setStabilizer =>
      exact h
  | reset =>
      exact hasShape_evolve_of_rewrites h (Machine.ensures_applyReset op.qubits)
  | measure =>
      exact hasShape_draw h (h.measure _ _ _ _)
  | bfunc =>
      apply hasShape_evolve h
      cases e.machine.classical.applyBfunc op with
      | error fault =>
          exact .error fault
      | ok bits =>
          exact .ok (h.withBits bits)
  | readoutError =>
      apply hasShape_draw h
      cases e.machine.classical.applyReadout op e.source with
      | error fault =>
          exact .error fault
      | ok read =>
          exact .ok (h.withBits read.1)
  | gate =>
      exact hasShape_evolve_of_rewrites h (Machine.ensures_applyGate op)
  | matrix =>
      cases op.matrices with
      | nil =>
          exact h
      | cons matrix rest =>
          exact hasShape_evolve_of_rewrites h (Machine.ensures_applyMatrix op.qubits matrix)
  | diagonal =>
      exact hasShape_evolve_of_rewrites h (Machine.ensures_applyDiagonal op.qubits op.params)
  | superop =>
      cases op.matrices with
      | nil =>
          exact h
      | cons matrix rest =>
          exact hasShape_evolve_of_rewrites h (Machine.ensures_applySuperop op.qubits matrix)
  | kraus =>
      exact hasShape_evolve_of_rewrites h (Machine.ensures_applyKraus op.qubits op.matrices)
  | setStatevec =>
      exact hasShape_evolve h (h.setVector op)
  | setDensmat =>
      exact hasShape_evolve h (h.setMatrix op)
  | saveExpval | saveExpvalVar | saveProbs | saveProbsKet | saveAmpsSq =>
      dsimp only
      rw [machine_file]
      exact h
  | saveState =>
      dsimp only
      rw [machine_saveState]
      exact h
  | saveDensmat =>
      dsimp only
      rw [machine_saveDensmat]
      exact h

theorem hasShape_apply (h : e.machine.HasShape N L k) (op : Instruction R) :
    (e.apply op false).2.machine.HasShape N L k := by
  unfold apply
  split
  · exact h
  · split
    · exact h
    · exact hasShape_perform h op

theorem hasShape_applyAll (h : e.machine.HasShape N L k) (ops : List (Instruction R)) :
    (e.applyAll ops false).2.machine.HasShape N L k := by
  induction ops generalizing e with
  | nil =>
      exact h
  | cons op rest ih =>
      have hstep := hasShape_apply h op
      unfold applyAll
      rcases happly : e.apply op (false && rest.isEmpty) with ⟨outcome, next⟩
      rw [Bool.false_and] at happly
      rw [happly] at hstep
      cases outcome with
      | ok done =>
          exact ih hstep
      | error fault =>
          exact hstep

end Experiment

end MixedState
