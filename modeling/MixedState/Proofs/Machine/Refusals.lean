import MixedState.Proofs.InPlace.Experiment
import MixedState.Proofs.Machine.Shape

/-!
# What a whole register does not refuse

A machine that holds its whole register refuses instructions for what they contain, but not
for where they act: a qubit outside of the chunk or a chunk in the place of the register
occurs on split registers only, and a qubit past the register in instructions that name one.
-/

namespace MixedState

/-- A qubit or a chunk that does not fit the register, or noise that does not fit a qubit. -/
def Refusal.isMisfit : Refusal -> Bool
  | .qubitOutOfRange .. | .globalQubit .. | .chunkedState .. | .notAChannel .. | .matrixShape .. =>
      true
  | _ => false

variable {α β : Type}

def NoMisfit (x : Outcome α) : Prop :=
  forall cause, x = .error (.refused cause) -> cause.isMisfit = false

theorem noMisfit_ok (a : α) : NoMisfit (.ok a : Outcome α) := by
  intro cause h
  cases h

theorem noMisfit_refuse {cause : Refusal} (hcause : cause.isMisfit = false) :
    NoMisfit (refuse cause : Outcome α) := by
  intro other h
  cases h
  exact hcause

theorem NoRefusal.noMisfit {x : Outcome α} (hx : NoRefusal x) : NoMisfit x :=
  fun cause h => absurd h (hx cause)

theorem NoMisfit.of_error {x : Outcome α} {fault : Fault} (hx : NoMisfit x)
    (h : x = .error fault) : NoMisfit (.error fault : Outcome β) := by
  intro cause hcause
  cases hcause
  exact hx cause h

theorem NoMisfit.bind {x : Outcome α} {f : α -> Outcome β} (hx : NoMisfit x)
    (hf : forall a, NoMisfit (f a)) : NoMisfit (x >>= f) := by
  cases x with
  | error fault =>
      exact hx.of_error rfl
  | ok a =>
      exact hf a

theorem NoMisfit.map {x : Outcome α} (hx : NoMisfit x) (f : α -> β) : NoMisfit (x.map f) := by
  cases x with
  | error fault =>
      exact hx.of_error rfl
  | ok a =>
      exact noMisfit_ok (f a)

theorem NoMisfit.ite {p : Prop} [Decidable p] {x y : Outcome α} (hx : NoMisfit x)
    (hy : NoMisfit y) : NoMisfit (if p then x else y) := by
  split
  · exact hx
  · exact hy

theorem NoMisfit.foldlM {step : β -> α -> Outcome β} {xs : List α} {b : β}
    (h : forall b a, NoMisfit (step b a)) : NoMisfit (xs.foldlM step b) := by
  induction xs generalizing b with
  | nil =>
      exact noMisfit_ok b
  | cons a rest ih =>
      rw [List.foldlM_cons]
      exact (h b a).bind fun _ => ih

theorem NoMisfit.mapM {f : α -> Outcome β} {xs : List α} (h : forall a, NoMisfit (f a)) :
    NoMisfit (xs.mapM f) := by
  induction xs with
  | nil =>
      exact noMisfit_ok []
  | cons a rest ih =>
      rw [List.mapM_cons]
      exact (h a).bind fun _ => ih.bind fun _ => noMisfit_ok _

/-!
## Pauli strings, draws and bits
-/

theorem PauliMasks.noMisfit_ofString (qubits : List Nat) (string : String) :
    NoMisfit (PauliMasks.ofString qubits string) := by
  unfold ofString
  split
  · apply NoMisfit.foldlM
    rintro masks ⟨q, letter⟩
    apply (noRefusal_checkedShift q).noMisfit.bind
    intro bit
    split
    · exact noMisfit_ok _
    · exact noMisfit_ok _
    · exact noMisfit_ok _
    · exact noMisfit_ok _
    · exact noMisfit_refuse rfl
  · exact noMisfit_refuse rfl

theorem Gate.noMisfit_ofName (name : String) : NoMisfit (Gate.ofName name) := by
  unfold ofName
  split
  · exact noMisfit_ok _
  · exact noMisfit_refuse rfl

variable {R : Type} [Scalar R]

theorem Kernel.noMisfit_pauli (positions : List Nat) (string : String) (factor : Amplitude R)
    (b : Buffer R) : NoMisfit (Kernel.pauli positions string factor b) := by
  apply (PauliMasks.noMisfit_ofString positions string).bind
  intro masks
  exact (noRefusal_orCrash _).noMisfit.bind fun _ => noMisfit_ok _

theorem Source.noMisfit_choose (source : Source) (weights : List R) :
    NoMisfit (source.choose weights) := by
  unfold choose
  dsimp only
  split
  · exact noMisfit_refuse rfl
  · split
    · exact noMisfit_refuse rfl
    · split
      · exact noRefusal_crash.noMisfit
      · exact noMisfit_ok _

namespace Classical

omit [Scalar R] in
theorem noMisfit_operand (what text : String) : NoMisfit (operand what text) := by
  unfold operand
  split
  · exact noMisfit_ok _
  · exact noMisfit_refuse rfl

variable {c : Classical} {op : Instruction R}

omit [Scalar R] in
theorem noMisfit_applyBfunc : NoMisfit (c.applyBfunc op) := by
  unfold applyBfunc
  split
  · split
    · exact noMisfit_refuse rfl
    · exact noMisfit_refuse rfl
    · apply (noMisfit_operand _ _).bind
      intro mask
      apply (noMisfit_operand _ _).bind
      intro target
      exact (InPlace.noRefusal_record _ _ _ _).noMisfit
  · exact noMisfit_refuse rfl

theorem noMisfit_applyReadout (source : Source) : NoMisfit (c.applyReadout op source) := by
  have hread : NoRefusal (read c.memory op.memory) := by
    unfold read
    simp
  apply hread.noMisfit.bind
  intro current
  split
  · exact (noRefusal_checkedShift _).noMisfit.bind fun _ => noMisfit_refuse rfl
  · apply (source.noMisfit_choose _).bind
    intro drawn
    exact (InPlace.noRefusal_record _ _ _ _).noMisfit.bind fun _ => noMisfit_ok _

end Classical

/-!
## Operators
-/

namespace Store

variable {s : Store R} {qubits : List Nat}

open InPlace

omit [Scalar R] in
theorem noRefusal_bothBits : NoRefusal (s.bothBits qubits) := by
  unfold bothBits
  simp

theorem noRefusal_applyUnitary (columns : Buffer R) :
    NoRefusal (s.applyUnitary qubits columns) := by
  simp [applyUnitary]

theorem noRefusal_applyDiagonalUnitary (entries : Buffer R) :
    NoRefusal (s.applyDiagonalUnitary qubits entries) := by
  simp [applyDiagonalUnitary, noRefusal_bothBits]

theorem noRefusal_applySuperop (columns : Buffer R) :
    NoRefusal (s.applySuperop qubits columns) := by
  simp [applySuperop, noRefusal_bothBits]

theorem noRefusal_applyFlip : NoRefusal (s.applyFlip qubits) := by
  simp [applyFlip]

theorem noRefusal_applyFlipY : NoRefusal (s.applyFlipY qubits) := by
  simp [applyFlipY]

theorem noRefusal_applyPhase (factor : Amplitude R) : NoRefusal (s.applyPhase qubits factor) := by
  simp [applyPhase]

theorem noRefusal_applySwap (p q : Nat) : NoRefusal (s.applySwap p q) := by
  unfold applySwap
  simp only [noRefusal_bind, noRefusal_transform, Kernel.noRefusal_exchange,
    noRefusal_columnBits, true_and]
  intro rows _ columns _
  split <;> simp

theorem noRefusal_applyReset : NoRefusal (s.applyReset qubits) := by
  simp [applyReset, noRefusal_applySuperop]

theorem noMisfit_loadVector (v : Buffer R) : NoMisfit (s.loadVector v) := by
  unfold loadVector
  apply (noRefusal_checkedShift _).noMisfit.bind
  intro dim
  apply (noRefusal_checkedMul _ _).noMisfit.bind
  intro square
  split
  · exact noMisfit_ok _
  · split
    · exact noMisfit_ok _
    · exact noMisfit_refuse rfl

theorem noMisfit_loadMatrix (u : Mat R) : NoMisfit (s.loadMatrix u) := by
  unfold loadMatrix
  apply (noRefusal_checkedShift _).noMisfit.bind
  intro dim
  split
  · exact noMisfit_ok _
  · exact (noRefusal_checkedMul _ _).noMisfit.bind fun _ => noMisfit_refuse rfl

end Store

namespace Machine

variable {m : Machine R} {op : Instruction R} {qubits : List Nat}

section Whole

omit [Scalar R]

theorem requireLocal_eq_ok (hsplit : m.isSplit = false) (name : String) (qubits : List Nat) :
    m.requireLocal name qubits = .ok () := by
  unfold requireLocal
  rw [hsplit]
  rfl

theorem requireWhole_eq_ok (hsplit : m.isSplit = false) (name : String) :
    m.requireWhole name = .ok () := by
  unfold requireWhole
  rw [hsplit]
  rfl

theorem noMisfit_update {f : Store R -> Outcome (Store R)} (h : NoMisfit (f m.store)) :
    NoMisfit (m.update f) :=
  h.bind fun _ => noMisfit_ok _

end Whole

theorem noMisfit_applyDiagonal (hsplit : m.isSplit = false) (entries : Buffer R) :
    NoMisfit (m.applyDiagonal qubits entries) := by
  unfold applyDiagonal
  apply (noRefusal_checkedShift _).noMisfit.bind
  intro dim
  split
  · exact noMisfit_refuse rfl
  · rw [hsplit, Bool.not_false, Bool.true_or, if_pos rfl]
    exact noMisfit_update (Store.noRefusal_applyDiagonalUnitary entries).noMisfit

theorem noMisfit_applyMatrix (hsplit : m.isSplit = false) (u : Mat R) :
    NoMisfit (m.applyMatrix qubits u) := by
  unfold applyMatrix
  apply (noRefusal_checkedShift _).noMisfit.bind
  intro dim
  split
  · exact noMisfit_applyDiagonal hsplit u.entries
  · split
    · exact (noRefusal_checkedMul _ _).noMisfit.bind fun _ => noMisfit_refuse rfl
    · rw [requireLocal_eq_ok hsplit, ok_bind]
      exact noMisfit_update (Store.noRefusal_applyUnitary _).noMisfit

theorem noMisfit_applySuperop (hsplit : m.isSplit = false) (map : Mat R) :
    NoMisfit (m.applySuperop qubits map) := by
  unfold applySuperop
  apply (noRefusal_checkedShift _).noMisfit.bind
  intro dim
  split
  · exact (noRefusal_checkedMul _ _).noMisfit.bind fun _ => noMisfit_refuse rfl
  · rw [requireLocal_eq_ok hsplit, ok_bind]
    exact noMisfit_update (Store.noRefusal_applySuperop _).noMisfit

theorem noMisfit_krausMap (operators : List (Mat R)) : NoMisfit (krausMap operators) := by
  unfold krausMap
  apply (noRefusal_checkedMul _ _).noMisfit.bind
  intro square
  apply (noRefusal_checkedMul _ _).noMisfit.bind
  intro count
  apply (noRefusal_allocate _ _).noMisfit.bind
  intro _
  apply NoMisfit.foldlM
  intro sum k
  unfold Mat.addStretched
  split
  · exact noMisfit_ok _
  · exact noRefusal_crash.noMisfit

theorem noMisfit_applyKraus (hsplit : m.isSplit = false) (operators : List (Mat R)) :
    NoMisfit (m.applyKraus qubits operators) := by
  unfold applyKraus
  split
  · exact noMisfit_refuse rfl
  · apply (noRefusal_checkedShift _).noMisfit.bind
    intro dim
    split
    · exact (noRefusal_checkedMul _ _).noMisfit.bind fun _ => noMisfit_refuse rfl
    · exact (noMisfit_krausMap operators).bind fun map => noMisfit_applySuperop hsplit map

theorem noMisfit_applyReset (hsplit : m.isSplit = false) : NoMisfit (m.applyReset qubits) := by
  unfold applyReset
  rw [requireLocal_eq_ok hsplit, ok_bind]
  exact noMisfit_update Store.noRefusal_applyReset.noMisfit

/-!
## Named gates
-/

theorem noMisfit_applyPhase (hsplit : m.isSplit = false) (q : Nat) (factor : Amplitude R) :
    NoMisfit (m.applyPhase q factor) :=
  noMisfit_applyDiagonal hsplit _

theorem noMisfit_applyPauli : NoMisfit (m.applyPauli op) := by
  unfold applyPauli
  split
  · exact noMisfit_refuse rfl
  · apply Store.noRefusal_bothBits.noMisfit.bind
    intro bits
    exact noMisfit_update ((Kernel.noMisfit_pauli _ _ _ _).bind fun _ => noMisfit_ok _)

omit [Scalar R] in
theorem noMisfit_first {f : Nat -> Outcome (Machine R)} (h : forall q, NoMisfit (f q)) :
    NoMisfit (match qubits with
      | q :: _ => f q
      | [] => crash) := by
  cases qubits with
  | nil =>
      exact noRefusal_crash.noMisfit
  | cons q rest =>
      exact h q

omit [Scalar R] in
theorem noMisfit_firstTwo {f : Nat -> Nat -> Outcome (Machine R)}
    (h : forall p q, NoMisfit (f p q)) :
    NoMisfit (match qubits with
      | p :: q :: _ => f p q
      | _ => crash) := by
  split
  · exact h _ _
  · exact noRefusal_crash.noMisfit

theorem noMisfit_applyLocal (hsplit : m.isSplit = false) (op : Instruction R) (gate : Gate) :
    NoMisfit (m.applyLocal op gate) := by
  unfold applyLocal
  dsimp only
  cases gate with
  | id =>
      exact noMisfit_ok _
  | x =>
      exact noMisfit_first fun _ => noMisfit_update Store.noRefusal_applyFlip.noMisfit
  | y =>
      exact noMisfit_first fun _ => noMisfit_update Store.noRefusal_applyFlipY.noMisfit
  | z | s | sdg | t | tdg | u1 =>
      exact noMisfit_first fun q => noMisfit_applyPhase hsplit q _
  | h | u2 | u3 | sx | sxdg | r | rx | ry | rxx | ryy | rzx | ecr =>
      exact noMisfit_applyMatrix hsplit _
  | rz | rzz =>
      exact noMisfit_applyDiagonal hsplit _
  | cx =>
      exact noMisfit_firstTwo fun _ _ => noMisfit_update Store.noRefusal_applyFlip.noMisfit
  | cy =>
      exact noMisfit_firstTwo fun _ _ => noMisfit_update Store.noRefusal_applyFlipY.noMisfit
  | cz | cp =>
      exact noMisfit_firstTwo fun _ _ =>
        noMisfit_update (Store.noRefusal_applyPhase _).noMisfit
  | swap =>
      exact noMisfit_firstTwo fun p q => noMisfit_update (Store.noRefusal_applySwap p q).noMisfit
  | ccx =>
      dsimp only
      split
      · exact noMisfit_update Store.noRefusal_applyFlip.noMisfit
      · exact noRefusal_crash.noMisfit
  | pauli =>
      exact noMisfit_applyPauli

omit [Scalar R] in
theorem noMisfit_checkGate (op : Instruction R) (gate : Gate) : NoMisfit (checkGate op gate) := by
  unfold checkGate
  exact (noMisfit_refuse rfl).ite ((noMisfit_refuse rfl).ite (noMisfit_ok ()))

theorem noMisfit_applyGate (hsplit : m.isSplit = false) (op : Instruction R) :
    NoMisfit (m.applyGate op) := by
  unfold applyGate
  apply (Gate.noMisfit_ofName _).bind
  intro gate
  apply (noMisfit_checkGate op gate).bind
  intro _
  rw [hsplit, if_neg Bool.false_ne_true]
  exact noMisfit_applyLocal hsplit op gate

/-!
## States and readouts
-/

omit [Scalar R] in
theorem noMisfit_requireAllQubits (hsplit : m.isSplit = false) (op : Instruction R) :
    NoMisfit (m.requireAllQubits op) := by
  unfold requireAllQubits
  rw [requireWhole_eq_ok hsplit, ok_bind]
  split
  · exact noMisfit_refuse rfl
  · exact noMisfit_ok _

theorem noMisfit_setVector (hsplit : m.isSplit = false) (op : Instruction R) :
    NoMisfit (m.setVector op) := by
  apply (noMisfit_requireAllQubits hsplit op).bind
  intro _
  apply (noRefusal_checkedShift _).noMisfit.bind
  intro dim
  split
  · exact noMisfit_refuse rfl
  · exact noMisfit_update (Store.noMisfit_loadVector _)

theorem noMisfit_setMatrix (hsplit : m.isSplit = false) (op : Instruction R) :
    NoMisfit (m.setMatrix op) := by
  apply (noMisfit_requireAllQubits hsplit op).bind
  intro _
  split
  · exact noMisfit_refuse rfl
  · exact noMisfit_update (Store.noMisfit_loadMatrix _)

theorem noRefusal_probabilities (s : Store R) : NoRefusal s.probabilities := by
  simp [Store.probabilities, Store.dim]

theorem noMisfit_outcomeProbabilities (hsplit : m.isSplit = false) (qubits : List Nat) :
    NoMisfit (m.outcomeProbabilities qubits) := by
  unfold outcomeProbabilities
  rw [requireWhole_eq_ok hsplit, ok_bind]
  apply (noRefusal_probabilities _).noMisfit.bind
  intro weights
  split
  · exact noMisfit_ok _
  · apply (noRefusal_checkedShift _).noMisfit.bind
    intro count
    apply (noRefusal_allocate _ _).noMisfit.bind
    intro _
    exact (noRefusal_addressable _).noMisfit.bind fun _ => noMisfit_ok _

theorem noMisfit_measure (hsplit : m.isSplit = false) (qubits memory registers : List Nat)
    (source : Source) : NoMisfit (m.measure qubits memory registers source) := by
  have hdraw : NoMisfit (m.drawOutcome qubits source) :=
    (noMisfit_outcomeProbabilities hsplit qubits).bind fun weights =>
      (source.noMisfit_choose weights).bind fun _ => noMisfit_ok _
  apply hdraw.bind
  rintro ⟨⟨outcome, probability⟩, source⟩
  apply (noRefusal_project outcome probability).noMisfit.bind
  intro projected
  exact (Classical.InPlace.noRefusal_record _ _ _ _).noMisfit.bind fun _ => noMisfit_ok _

theorem noRefusal_ofColumns (dim : Nat) (b : Buffer R) : NoRefusal (Mat.ofColumns dim b) := by
  unfold Mat.ofColumns
  simp

theorem noRefusal_copy (s : Store R) : NoRefusal s.copy := by
  simp [Store.copy, Store.dim, noRefusal_ofColumns]

theorem noMisfit_take (s : Store R) : NoMisfit s.take.1 := by
  unfold Store.take
  apply (noRefusal_checkedShift _).noMisfit.bind
  intro dim
  exact (noRefusal_ofColumns _ _).noMisfit.ite
    ((noRefusal_checkedMul _ _).noMisfit.bind fun _ => noMisfit_refuse rfl)

theorem noRefusal_partialTrace (m : Machine R) (qubits : List Nat) :
    NoRefusal (m.partialTrace qubits) := by
  simp [partialTrace]

theorem noMisfit_reduced (hsplit : m.isSplit = false) (qubits : List Nat) (final : Bool) :
    NoMisfit (m.reduced qubits final).1 := by
  unfold reduced
  rw [requireWhole_eq_ok hsplit]
  dsimp only
  split
  · exact ((noRefusal_probabilities m.store).noMisfit.bind fun _ => noMisfit_ok _).map _
  · split
    · exact (noRefusal_partialTrace m qubits).noMisfit
    · split
      · exact noMisfit_take m.store
      · exact (noRefusal_copy m.store).noMisfit

end Machine

theorem Store.noMisfit_expectation (s : Store R) (qubits : List Nat) (string : String) :
    NoMisfit (s.expectation qubits string) := by
  apply (PauliMasks.noMisfit_ofString qubits string).bind
  intro masks
  apply (noRefusal_checkedShift _).noMisfit.bind
  intro dim
  exact (noRefusal_orCrash _).noMisfit.bind fun _ => noMisfit_ok _

/-!
## Saves
-/

theorem Archive.noMisfit_addAverage (slots : KeyMap (Average R)) (slot : String)
    (data : SavedData R) (what : String) : NoMisfit (addAverage slots slot data what) := by
  unfold addAverage
  split
  · exact noMisfit_ok _
  · split
    · exact noMisfit_ok _
    · exact noMisfit_refuse rfl

theorem Archive.noMisfit_save (archive : Archive R) (memory key what : String) (mode : SaveMode)
    (data : SavedData R) : NoMisfit (archive.save memory key what mode data) := by
  unfold save
  split
  · exact noMisfit_ok _
  · exact noMisfit_ok _
  · exact (noMisfit_addAverage _ _ _ _).bind fun _ => noMisfit_ok _
  · exact noMisfit_ok _
  · exact noMisfit_ok _
  · exact (noMisfit_addAverage _ _ _ _).bind fun _ => noMisfit_ok _

namespace Experiment

variable {e : Experiment R} {op : Instruction R}

omit [Scalar R] in
theorem noMisfit_saveKey (op : Instruction R) : NoMisfit (saveKey op) := by
  unfold saveKey
  split
  · exact noMisfit_ok _
  · exact noMisfit_refuse rfl

theorem noMisfit_put (kind : Kind) (key : String) (mode : SaveMode) (data : SavedData R) :
    NoMisfit (e.put kind key mode data) :=
  Archive.noMisfit_save _ _ _ _ _ _

omit [Scalar R] in
theorem noMisfit_evolve {result : Outcome (Machine R)} (h : NoMisfit result) :
    NoMisfit (e.evolve result).1 := by
  cases result with
  | ok m =>
      exact noMisfit_ok ()
  | error fault =>
      exact h.of_error rfl

omit [Scalar R] in
theorem noMisfit_draw {result : Outcome (Machine R × Source)} (h : NoMisfit result) :
    NoMisfit (e.draw result).1 := by
  cases result with
  | ok m =>
      exact noMisfit_ok ()
  | error fault =>
      exact h.of_error rfl

omit [Scalar R] in
theorem noMisfit_file {result : Outcome (Archive R)} (h : NoMisfit result) :
    NoMisfit (e.file result).1 := by
  cases result with
  | ok m =>
      exact noMisfit_ok ()
  | error fault =>
      exact h.of_error rfl

theorem noMisfit_saveMatrix {kind : Kind} {key : String} {mode : SaveMode}
    {read : Outcome (Mat R) × Machine R} (h : NoMisfit read.1) :
    NoMisfit (e.saveMatrix kind key mode read).1 :=
  noMisfit_file (h.bind fun _ => noMisfit_put _ _ _ _)

theorem noMisfit_saveState (hsplit : e.machine.isSplit = false) (op : Instruction R)
    (final : Bool) : NoMisfit (e.saveState op final).1 := by
  have hcheck : NoMisfit (e.checkState op) := by
    unfold checkState
    rw [Machine.requireWhole_eq_ok hsplit, ok_bind]
    exact (noMisfit_refuse rfl).ite (noMisfit_saveKey op)
  unfold saveState
  cases hkey : e.checkState op with
  | error fault =>
      exact hcheck.of_error hkey
  | ok key =>
      apply noMisfit_saveMatrix
      cases final with
      | true =>
          exact Machine.noMisfit_take _
      | false =>
          exact (Machine.noRefusal_copy _).noMisfit

theorem noMisfit_saveDensmat (hsplit : e.machine.isSplit = false) (op : Instruction R)
    (final : Bool) : NoMisfit (e.saveDensmat op final).1 := by
  unfold saveDensmat
  cases hkey : saveKey op with
  | error fault =>
      exact (noMisfit_saveKey op).of_error hkey
  | ok key =>
      exact noMisfit_saveMatrix (Machine.noMisfit_reduced hsplit op.qubits final)

theorem noMisfit_saveProbs (hsplit : e.machine.isSplit = false) (op : Instruction R) :
    NoMisfit (e.saveProbs op) := by
  apply (noMisfit_saveKey op).bind
  intro key
  apply (Machine.noMisfit_outcomeProbabilities hsplit op.qubits).bind
  intro weights
  exact noMisfit_put _ _ _ _

theorem noMisfit_saveAmpsSq (hsplit : e.machine.isSplit = false) (op : Instruction R) :
    NoMisfit (e.saveAmpsSq op) := by
  have hprobability : forall i, NoMisfit (e.machine.store.probability i) := fun i =>
    (noRefusal_checkedShift _).noMisfit.bind fun _ =>
      (noRefusal_orCrash _).noMisfit.bind fun _ => noMisfit_ok _
  unfold saveAmpsSq
  rw [Machine.requireWhole_eq_ok hsplit, ok_bind]
  apply (noMisfit_saveKey op).bind
  intro key
  split
  · exact noMisfit_refuse rfl
  · apply (noRefusal_checkedShift _).noMisfit.bind
    intro dim
    split
    · exact noMisfit_refuse rfl
    · exact (NoMisfit.mapM hprobability).bind fun _ => noMisfit_put _ _ _ _

theorem noMisfit_saveExpval (hsplit : e.machine.isSplit = false) (op : Instruction R) :
    NoMisfit (e.saveExpval op) := by
  have hterms : NoMisfit (expectations e.machine.store op.qubits op.terms) := by
    apply NoMisfit.foldlM
    rintro ⟨sum, sqSum⟩ term
    exact (Store.noMisfit_expectation _ _ _).bind fun _ => noMisfit_ok _
  unfold saveExpval
  rw [Machine.requireWhole_eq_ok hsplit, ok_bind]
  apply (noMisfit_saveKey op).bind
  intro key
  split
  · exact noMisfit_refuse rfl
  · exact hterms.bind fun _ => noMisfit_put _ _ _ _

/-!
## Instructions
-/

theorem noMisfit_perform (hsplit : e.machine.isSplit = false) (op : Instruction R)
    (final : Bool) : NoMisfit (e.perform op final).1 := by
  unfold perform
  dsimp only
  cases op.kind with
  | barrier | errorLocation | mark | jump =>
      exact noMisfit_ok ()
  | reset =>
      exact noMisfit_evolve (Machine.noMisfit_applyReset hsplit)
  | measure =>
      exact noMisfit_draw (Machine.noMisfit_measure hsplit _ _ _ _)
  | bfunc =>
      exact noMisfit_evolve (Classical.noMisfit_applyBfunc.map _)
  | readoutError =>
      exact noMisfit_draw ((Classical.noMisfit_applyReadout _).map _)
  | gate =>
      exact noMisfit_evolve (Machine.noMisfit_applyGate hsplit op)
  | matrix =>
      cases op.matrices with
      | nil =>
          exact noMisfit_refuse rfl
      | cons matrix rest =>
          exact noMisfit_evolve (Machine.noMisfit_applyMatrix hsplit matrix)
  | diagonal =>
      exact noMisfit_evolve (Machine.noMisfit_applyDiagonal hsplit op.params)
  | superop =>
      cases op.matrices with
      | nil =>
          exact noMisfit_refuse rfl
      | cons matrix rest =>
          exact noMisfit_evolve (Machine.noMisfit_applySuperop hsplit matrix)
  | kraus =>
      exact noMisfit_evolve (Machine.noMisfit_applyKraus hsplit op.matrices)
  | setStatevec =>
      exact noMisfit_evolve (Machine.noMisfit_setVector hsplit op)
  | setDensmat =>
      exact noMisfit_evolve (Machine.noMisfit_setMatrix hsplit op)
  | saveExpval | saveExpvalVar =>
      exact noMisfit_file (noMisfit_saveExpval hsplit op)
  | saveState =>
      exact noMisfit_saveState hsplit op final
  | saveDensmat =>
      exact noMisfit_saveDensmat hsplit op final
  | saveProbs | saveProbsKet =>
      exact noMisfit_file (noMisfit_saveProbs hsplit op)
  | saveAmpsSq =>
      exact noMisfit_file (noMisfit_saveAmpsSq hsplit op)
  | prepare | saveStatevec | saveAmps | setStabilizer =>
      exact noMisfit_refuse rfl

variable {N k : Nat}

theorem noMisfit_apply (h : e.machine.HasShape N N k) (hqubits : forall q, q ∈ op.qubits -> q < N)
    (final : Bool) : NoMisfit (e.apply op final).1 := by
  unfold apply
  split
  · exact noMisfit_ok ()
  · split
    · next q hq =>
        have hinside := hqubits q (List.mem_of_find?_eq_some hq)
        have hpast : e.machine.width ≤ q := of_decide_eq_true (by simpa using List.find?_some hq)
        rw [h.width] at hpast
        omega
    · exact noMisfit_perform h.whole op final

end Experiment

end MixedState
