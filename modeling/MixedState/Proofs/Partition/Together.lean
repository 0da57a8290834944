import MixedState.Proofs.Machine.Saves
import MixedState.Proofs.Partition.Siblings

/-!
# Instructions on all chunks of a register

An instruction ends alike on the chunks of one register, and leaves chunks of one register
again.  A run therefore stops on all of them at the same instruction, for the same cause.
-/

namespace MixedState

variable {R : Type} [Scalar R]

structure Experiment.Siblings (e e' : Experiment R) : Prop where
  machine : e.machine.Siblings e'.machine
  archive : e.archive = e'.archive
  source : e.source = e'.source

structure Step.Alike (s s' : Step R) : Prop where
  outcome : s.1 = s'.1
  left : s.2.Siblings s'.2

/-!
## What a chunk refuses
-/

namespace Machine

variable {m : Machine R} {op : Instruction R}

omit [Scalar R] in
theorem requireWhole_of_split (hsplit : m.isSplit = true) (name : String) :
    m.requireWhole name = refuse (.chunkedState name) :=
  if_pos hsplit

theorem outcomeProbabilities_of_split (hsplit : m.isSplit = true) (qubits : List Nat) :
    m.outcomeProbabilities qubits = refuse (.chunkedState "measure") := by
  unfold outcomeProbabilities
  rw [requireWhole_of_split hsplit]
  rfl

theorem measure_of_split (hsplit : m.isSplit = true) (qubits memory registers : List Nat)
    (source : Source) :
    m.measure qubits memory registers source = refuse (.chunkedState "measure") := by
  unfold measure drawOutcome
  rw [outcomeProbabilities_of_split hsplit]
  rfl

theorem reduced_of_split (hsplit : m.isSplit = true) (qubits : List Nat) (final : Bool) :
    m.reduced qubits final = (refuse (.chunkedState "save_densmat"), m) := by
  unfold reduced
  rw [requireWhole_of_split hsplit]
  rfl

theorem setVector_of_split (hsplit : m.isSplit = true) :
    m.setVector op = refuse (.chunkedState op.name) := by
  unfold setVector requireAllQubits
  rw [requireWhole_of_split hsplit]
  rfl

theorem setMatrix_of_split (hsplit : m.isSplit = true) :
    m.setMatrix op = refuse (.chunkedState op.name) := by
  unfold setMatrix requireAllQubits
  rw [requireWhole_of_split hsplit]
  rfl

end Machine

namespace Experiment

variable {e e' : Experiment R} {op : Instruction R}

theorem saveExpval_of_split (hsplit : e.machine.isSplit = true) :
    e.saveExpval op = refuse (.chunkedState op.name) := by
  unfold saveExpval
  rw [Machine.requireWhole_of_split hsplit]
  rfl

theorem saveAmpsSq_of_split (hsplit : e.machine.isSplit = true) :
    e.saveAmpsSq op = refuse (.chunkedState op.name) := by
  unfold saveAmpsSq
  rw [Machine.requireWhole_of_split hsplit]
  rfl

theorem saveProbs_of_split (hsplit : e.machine.isSplit = true) :
    e.saveProbs op = saveKey op >>= fun _ => refuse (.chunkedState "measure") := by
  unfold saveProbs
  rw [Machine.outcomeProbabilities_of_split hsplit]
  rfl

theorem saveState_of_split (hsplit : e.machine.isSplit = true) (final : Bool) :
    e.saveState op final = (refuse (.chunkedState op.name), e) := by
  unfold saveState checkState
  rw [Machine.requireWhole_of_split hsplit]
  rfl

theorem saveDensmat_of_split (hsplit : e.machine.isSplit = true) (final : Bool) :
    e.saveDensmat op final =
      (saveKey op >>= fun _ => refuse (.chunkedState "save_densmat"), e) := by
  unfold saveDensmat
  rw [Machine.reduced_of_split hsplit]
  cases saveKey op with
  | error fault =>
      rfl
  | ok key =>
      rfl

/-!
## One instruction
-/

namespace Siblings

omit [Scalar R] in
theorem same (h : Siblings e e') (outcome : Outcome Unit) :
    Step.Alike (outcome, e) (outcome, e') :=
  ⟨rfl, h⟩

omit [Scalar R] in
theorem evolve (h : Siblings e e') {result result' : Outcome (Machine R)}
    (hresults : Alike Machine.Siblings result result') :
    Step.Alike (e.evolve result) (e'.evolve result') := by
  cases hresults with
  | ok hmachine =>
      exact ⟨rfl, { h with machine := hmachine }⟩
  | error fault =>
      exact h.same _

omit [Scalar R] in
theorem draw (h : Siblings e e') {result result' : Outcome (Machine R × Source)}
    (hresults : Alike (fun p p' => p.1.Siblings p'.1 ∧ p.2 = p'.2) result result') :
    Step.Alike (e.draw result) (e'.draw result') := by
  cases hresults with
  | ok hpair =>
      exact ⟨rfl, { h with machine := hpair.1, source := hpair.2 }⟩
  | error fault =>
      exact h.same _

omit [Scalar R] in
theorem file (h : Siblings e e') (result : Outcome (Archive R)) :
    Step.Alike (e.file result) (e'.file result) := by
  cases result with
  | ok archive =>
      exact ⟨rfl, { h with archive := rfl }⟩
  | error fault =>
      exact h.same _

omit [Scalar R] in
theorem withBits (h : Siblings e e') (bits : Classical) :
    Machine.Siblings { e.machine with classical := bits } { e'.machine with classical := bits } :=
  { h.machine with classical := rfl }

theorem perform (h : Siblings e e') (final : Bool) :
    Step.Alike (e.perform op final) (e'.perform op final) := by
  -- What asks for the whole register is refused on both chunks with the same complaint.
  have hsplit := h.machine.isSplit
  have hsplit' := h.machine.isSplit'
  unfold Experiment.perform
  dsimp only
  cases op.kind with
  | barrier | errorLocation | mark | jump =>
      exact h.same _
  | reset =>
      exact h.evolve h.machine.applyReset
  | measure =>
      dsimp only
      rw [Machine.measure_of_split hsplit, Machine.measure_of_split hsplit']
      exact h.draw (.error _)
  | bfunc =>
      dsimp only
      rw [h.machine.classical]
      cases e'.machine.classical.applyBfunc op with
      | error fault =>
          exact h.same _
      | ok bits =>
          exact h.evolve (.ok (h.withBits bits))
  | readoutError =>
      dsimp only
      rw [h.machine.classical, h.source]
      cases e'.machine.classical.applyReadout op e'.source with
      | error fault =>
          exact h.same _
      | ok read =>
          exact h.draw (.ok ⟨h.withBits read.1, rfl⟩)
  | gate =>
      exact h.evolve h.machine.applyGate
  | matrix =>
      cases op.matrices with
      | nil =>
          exact h.same _
      | cons matrix _ =>
          exact h.evolve (h.machine.applyMatrix matrix)
  | diagonal =>
      exact h.evolve (h.machine.applyDiagonal op.params)
  | superop =>
      cases op.matrices with
      | nil =>
          exact h.same _
      | cons matrix _ =>
          exact h.evolve (h.machine.applySuperop matrix)
  | kraus =>
      exact h.evolve (h.machine.applyKraus op.matrices)
  | setStatevec =>
      dsimp only
      rw [Machine.setVector_of_split hsplit, Machine.setVector_of_split hsplit']
      exact h.evolve (.error _)
  | setDensmat =>
      dsimp only
      rw [Machine.setMatrix_of_split hsplit, Machine.setMatrix_of_split hsplit']
      exact h.evolve (.error _)
  | saveExpval | saveExpvalVar =>
      dsimp only
      rw [saveExpval_of_split hsplit, saveExpval_of_split hsplit']
      exact h.file _
  | saveState =>
      dsimp only
      rw [saveState_of_split hsplit, saveState_of_split hsplit']
      exact h.same _
  | saveDensmat =>
      dsimp only
      rw [saveDensmat_of_split hsplit, saveDensmat_of_split hsplit']
      exact h.same _
  | saveProbs | saveProbsKet =>
      dsimp only
      rw [saveProbs_of_split hsplit, saveProbs_of_split hsplit']
      exact h.file _
  | saveAmpsSq =>
      dsimp only
      rw [saveAmpsSq_of_split hsplit, saveAmpsSq_of_split hsplit']
      exact h.file _
  | prepare | saveStatevec | saveAmps | setStabilizer =>
      exact h.same _

theorem apply (h : Siblings e e') (op : Instruction R) (final : Bool) :
    Step.Alike (e.apply op final) (e'.apply op final) := by
  unfold Experiment.apply
  rw [h.machine.classical, h.machine.width]
  split
  · exact h.same _
  · cases op.qubits.find? fun q => e'.machine.width ≤ q with
    | some qubit =>
        exact h.same _
    | none =>
        exact h.perform final

theorem applyAll (h : Siblings e e') (ops : List (Instruction R)) (final : Bool) :
    Step.Alike (e.applyAll ops final) (e'.applyAll ops final) := by
  induction ops generalizing e e' with
  | nil =>
      exact h.same _
  | cons op rest ih =>
      have hstep := h.apply op (final && rest.isEmpty)
      unfold Experiment.applyAll
      rcases hleft : e.apply op (final && rest.isEmpty) with ⟨outcome, middle⟩
      rcases hright : e'.apply op (final && rest.isEmpty) with ⟨outcome', middle'⟩
      rw [hleft, hright] at hstep
      rcases hstep with ⟨hsame, hmiddle⟩
      obtain rfl : outcome = outcome' := hsame
      cases outcome with
      | error fault =>
          exact hmiddle.same _
      | ok done =>
          exact ih hmiddle

end Siblings

end Experiment

/-!
## From two chunks of a register
-/

omit [Scalar R] in
theorem Store.eq_of_ofChunk {L k : Nat} {part : Buffer R} {store : Store R}
    (h : Store.ofChunk L k part = .ok store) :
    (2 * L < wordBits ∧ part.size = twoPow (2 * L)) ∧ store = ⟨L, k, part⟩ := by
  unfold Store.ofChunk at h
  rcases bind_eq_ok_iff.mp h with ⟨count, hcount, h⟩
  rcases checkedShift_eq_ok_iff.mp hcount with ⟨hword, rfl⟩
  split at h
  · next hsize =>
      cases h
      exact ⟨⟨hword, hsize⟩, rfl⟩
  · exact absurd h refuse_ne_ok

omit [Scalar R] in
theorem Store.hasShape_of_ofChunk {L k : Nat} {part : Buffer R} {store : Store R}
    (h : Store.ofChunk L k part = .ok store) :
    2 * L < wordBits ∧ store.HasShape L (twoPow (2 * L)) := by
  rcases Store.eq_of_ofChunk h with ⟨⟨hword, hsize⟩, rfl⟩
  exact ⟨hword, rfl, hsize⟩

theorem Machine.siblings_ofChunk {N L k k' : Nat} {part part' : Buffer R} {store store' : Store R}
    (hL : L < N) (hstore : Store.ofChunk L k part = .ok store)
    (hstore' : Store.ofChunk L k' part' = .ok store') (classical : Classical)
    (settings : Settings R) :
    Machine.Siblings { Machine.ofChunk store N with classical := classical, settings := settings }
      { Machine.ofChunk store' N with classical := classical, settings := settings } := by
  rcases Store.hasShape_of_ofChunk hstore with ⟨hword, hshape⟩
  rcases Store.hasShape_of_ofChunk hstore' with ⟨_, hshape'⟩
  constructor
  · change max N store.qubits = max N store'.qubits
    rw [hshape.qubits, hshape'.qubits]
  · rfl
  · rfl
  · change Store.SameShape store.qubits (twoPow (2 * store.qubits)) store store'
    rw [hshape.qubits]
    exact ⟨hshape, hshape'⟩
  · change store.qubits < max N store.qubits
    rw [hshape.qubits]
    exact Nat.lt_of_lt_of_le hL (Nat.le_max_left N L)
  · change 2 * store.qubits < wordBits
    rw [hshape.qubits]
    exact hword

namespace Experiment

/-- An instruction succeeds on two chunks of a register, or fails on both for the same
cause. -/
theorem apply_ofChunk {N L k k' : Nat} {part part' : Buffer R} {store store' : Store R}
    (hL : L < N) (hstore : Store.ofChunk L k part = .ok store)
    (hstore' : Store.ofChunk L k' part' = .ok store') (classical : Classical)
    (settings : Settings R) (archive : Archive R) (source : Source) (op : Instruction R)
    (final : Bool) :
    (Experiment.apply
      { machine := { Machine.ofChunk store N with classical := classical, settings := settings }
        archive := archive
        source := source } op final).1 =
    (Experiment.apply
      { machine := { Machine.ofChunk store' N with classical := classical, settings := settings }
        archive := archive
        source := source } op final).1 := by
  have hsiblings : Siblings
      ⟨{ Machine.ofChunk store N with classical := classical, settings := settings }, archive,
        source⟩
      ⟨{ Machine.ofChunk store' N with classical := classical, settings := settings }, archive,
        source⟩ :=
    ⟨Machine.siblings_ofChunk hL hstore hstore' classical settings, rfl, rfl⟩
  exact (hsiblings.apply op final).outcome

theorem apply_ofChunk_cx :
    Store.ofChunk 1 0 #[1, 0, 0, 0] = .ok (⟨1, 0, #[1, 0, 0, 0]⟩ : Store Float) ∧
      Store.ofChunk 1 3 #[0, 0, 0, 1] = .ok (⟨1, 3, #[0, 0, 0, 1]⟩ : Store Float) ∧
      (Experiment.apply
        { machine := Machine.ofChunk (⟨1, 0, #[1, 0, 0, 0]⟩ : Store Float) 2
          archive := .empty
          source := .ofSeed 0 } (Instruction.gate "cx" [1, 0] []) false).1 =
      (Experiment.apply
        { machine := Machine.ofChunk (⟨1, 3, #[0, 0, 0, 1]⟩ : Store Float) 2
          archive := .empty
          source := .ofSeed 0 } (Instruction.gate "cx" [1, 0] []) false).1 := by
  have hfirst : Store.ofChunk 1 0 #[1, 0, 0, 0] =
      .ok (⟨1, 0, #[1, 0, 0, 0]⟩ : Store Float) := rfl
  have hlast : Store.ofChunk 1 3 #[0, 0, 0, 1] =
      .ok (⟨1, 3, #[0, 0, 0, 1]⟩ : Store Float) := rfl
  exact ⟨hfirst, hlast, apply_ofChunk (by decide : 1 < 2) hfirst hlast .empty .standard .empty
    (.ofSeed 0) (Instruction.gate "cx" [1, 0] []) false⟩

end Experiment

end MixedState
