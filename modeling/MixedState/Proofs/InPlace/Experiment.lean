import MixedState.InPlace.Experiment
import MixedState.Proofs.InPlace.Classical
import MixedState.Proofs.InPlace.Machine
import MixedState.Proofs.Machine.Saves

/-!
# Instructions change all or nothing

Carried out in place, an instruction ends like the function that gives the whole new
state at once.  So an instruction that is refused leaves the experiment as it was, with
the bits, the archive and the source, although it writes to them one after the other.
-/

namespace MixedState

open Procedure

variable {R : Type} [Scalar R]

/-!
## What follows a draw is not refused
-/

@[simp] theorem noRefusal_restrictDiagonal (bits width : Nat) (positions : List Nat)
    (entries : Buffer R) : NoRefusal (restrictDiagonal bits width positions entries) := by
  unfold restrictDiagonal
  simp only [noRefusal_bind, noRefusal_orCrash, true_and]
  intro _ _
  split <;> simp

namespace Machine

variable {m : Machine R} {qubits : List Nat}

theorem noRefusal_applyDiagonal {entries : Buffer R}
    (hsize : forall dim, checkedShift qubits.length = .ok dim -> entries.size = dim) :
    NoRefusal (m.applyDiagonal qubits entries) := by
  unfold applyDiagonal
  simp only [noRefusal_bind, noRefusal_checkedShift, true_and]
  intro dim hdim
  rw [if_neg (not_not_intro (hsize dim hdim))]
  split
  · simp [update, Store.applyDiagonalUnitary, Store.bothBits, Store.transform,
      Store.InPlace.noRefusal_columnBits]
  · simp [update, Place.rowBits, Place.columnBits, Store.bothBits, Store.transform,
      Store.InPlace.noRefusal_columnBits]

theorem noRefusal_project (outcome : Nat) (probability : R) :
    NoRefusal (m.project qubits outcome probability) := by
  unfold project
  simp only [noRefusal_bind, noRefusal_checkedShift, noRefusal_allocate, noRefusal_orCrash,
    true_and]
  intro dim hdim _ _ _ _
  apply noRefusal_applyDiagonal
  intro dim' hdim'
  rw [hdim] at hdim'
  cases hdim'
  exact Buffer.size_tabulate _ _

end Machine

namespace Experiment.InPlace

variable {e : Experiment R} {op : Instruction R}

/-!
## Draws
-/

theorem carriesOut_choose {weights : List R} {f : Nat -> Procedure (Experiment R) Unit}
    {g : Nat × Source -> Outcome (Experiment R)}
    (hf : forall index source, e.source.choose weights = .ok (index, source) ->
      CarriesOut (f index) { e with source := source } (g (index, source)))
    (hg : forall drawn, NoRefusal (g drawn)) :
    CarriesOut (choose weights >>= f) e (e.source.choose weights >>= g) := by
  have hchoose : forall result, e.source.choose weights = result ->
      choose weights e = match result with
        | .ok (index, source) => (.ok index, { e with source := source })
        | .error fault => (.error fault, e) := by
    intro result hresult
    change ((liftM (e.source.choose weights) >>= fun drawn =>
      setField sourceField drawn.2 >>= fun _ => pure drawn.1 :
        Procedure (Experiment R) Nat) e) = _
    rw [hresult]
    cases result with
    | error fault =>
        rfl
    | ok drawn =>
        rfl
  unfold CarriesOut
  cases hdrawn : e.source.choose weights with
  | error fault =>
      rw [bind_of_eq_error (hchoose _ hdrawn)]
      exact Agree.refl _
  | ok drawn =>
      rw [bind_of_eq_ok (hchoose _ hdrawn)]
      exact (hf _ _ hdrawn).resettle (hg drawn)

theorem carriesOut_measure (qubits memory registers : List Nat) :
    CarriesOut (measure qubits memory registers) e
      (e.machine.measure qubits memory registers e.source >>= fun measured =>
        .ok { e with machine := measured.1, source := measured.2 }) := by
  have hmeasure : (e.machine.measure qubits memory registers e.source >>= fun measured =>
        (.ok { e with machine := measured.1, source := measured.2 } : Outcome _)) =
      (e.machine.outcomeProbabilities qubits >>= fun weights =>
        e.source.choose weights >>= fun drawn =>
          (e.machine.project qubits drawn.1 (weights.getD drawn.1 0) >>= fun projected =>
            .ok { e with machine := projected, source := drawn.2 }) >>= fun after =>
              after.machine.classical.record drawn.1 memory registers >>= fun c =>
                .ok { after with machine := { after.machine with classical := c } }) := by
    simp only [Machine.measure, Machine.drawOutcome, bind_assoc, ok_bind]
    rfl
  rw [hmeasure]
  apply carriesOut_get
  apply carriesOut_check
  intro weights _
  apply carriesOut_choose
  · intro outcome source _
    apply carriesOut_then
    · exact carriesOut_inside rfl (Machine.InPlace.carriesOut_project _ _)
    · intro after _
      exact carriesOut_inside rfl Classical.InPlace.carriesOut_record
    · intro after _
      simp [Classical.InPlace.noRefusal_record]
  · intro drawn
    simp [Classical.InPlace.noRefusal_record, Machine.noRefusal_project]

theorem carriesOut_applyReadout :
    CarriesOut (applyReadout op) e
      (e.machine.classical.applyReadout op e.source >>= fun reported =>
        .ok { e with
          machine := { e.machine with classical := reported.1 }, source := reported.2 }) := by
  unfold Classical.applyReadout
  rw [bind_assoc]
  apply carriesOut_get
  apply carriesOut_check
  intro current _
  cases op.readout[current]? with
  | none =>
      dsimp only
      rw [bind_assoc]
      apply carriesOut_check
      intro rows _
      exact carriesOut_error _
  | some row =>
      dsimp only
      simp only [bind_assoc]
      apply carriesOut_choose
      · intro reported source _
        exact carriesOut_inside rfl Classical.InPlace.carriesOut_record
      · intro drawn
        simp [Classical.InPlace.noRefusal_record]

/-!
## Steps
-/

omit [Scalar R] in
theorem evolve_eq (result : Outcome (Machine R)) :
    e.evolve result = settle e (result >>= fun m => .ok { e with machine := m }) := by
  cases result <;> rfl

omit [Scalar R] in
theorem draw_eq (result : Outcome (Machine R × Source)) :
    e.draw result = settle e (result >>= fun drawn =>
      .ok { e with machine := drawn.1, source := drawn.2 }) := by
  cases result <;> rfl

omit [Scalar R] in
theorem file_eq (result : Outcome (Archive R)) :
    e.file result = settle e (result >>= fun archive => .ok { e with archive := archive }) := by
  cases result <;> rfl

/-!
## Saves
-/

theorem carriesOut_save (kind : Kind) (key : String) (mode : SaveMode) (data : SavedData R) :
    CarriesOut (save kind key mode data) e
      (e.put kind key mode data >>= fun archive => .ok { e with archive := archive }) :=
  carriesOut_get (carriesOut_inside rfl (Archive.InPlace.carriesOut_save _ _ _ _ _))

theorem carriesOut_saveProbs :
    CarriesOut (saveProbs op) e
      (e.saveProbs op >>= fun archive => .ok { e with archive := archive }) := by
  simp only [Experiment.saveProbs, bind_assoc]
  apply carriesOut_get
  apply carriesOut_check
  intro key _
  apply carriesOut_check
  intro weights _
  exact carriesOut_save _ _ _ _

theorem carriesOut_saveAmpsSq :
    CarriesOut (saveAmpsSq op) e
      (e.saveAmpsSq op >>= fun archive => .ok { e with archive := archive }) := by
  simp only [Experiment.saveAmpsSq, bind_assoc]
  apply carriesOut_get
  apply carriesOut_check
  intro _ _
  apply carriesOut_check
  intro key _
  split
  · exact carriesOut_error _
  · rw [bind_assoc]
    apply carriesOut_check
    intro dim _
    cases op.indices.find? fun i => dim ≤ i with
    | some i =>
        exact carriesOut_error _
    | none =>
        dsimp only
        rw [bind_assoc]
        apply carriesOut_check
        intro values _
        exact carriesOut_save _ _ _ _

theorem carriesOut_saveExpval :
    CarriesOut (saveExpval op) e
      (e.saveExpval op >>= fun archive => .ok { e with archive := archive }) := by
  simp only [Experiment.saveExpval, bind_assoc]
  apply carriesOut_get
  apply carriesOut_check
  intro _ _
  apply carriesOut_check
  intro key _
  split
  · exact carriesOut_error _
  · rw [bind_assoc]
    apply carriesOut_check
    intro means _
    exact carriesOut_save _ _ _ _

theorem agree_saveMatrix {p : Procedure (Experiment R) (Mat R)} {kind : Kind} {key : String}
    {mode : SaveMode} {read : Outcome (Mat R) × Machine R}
    (h : Agree (p e) (read.1, { e with machine := read.2 })) :
    Agree ((p >>= fun matrix => save kind key mode (.matrix matrix)) e)
      (e.saveMatrix kind key mode read) := by
  rcases read with ⟨outcome, m⟩
  rcases h with heq | ⟨hleft, hright⟩
  · cases outcome with
    | error fault =>
        rw [bind_of_eq_error heq]
        exact Agree.refl _
    | ok matrix =>
        rw [bind_of_eq_ok heq]
        unfold saveMatrix
        rw [file_eq]
        exact carriesOut_save kind key mode _
  · obtain rfl : outcome = crash := hright
    right
    constructor
    · rw [bind_of_eq_error (Prod.ext hleft rfl)]
      rfl
    · rfl

theorem take_eq (s : Store R) : Store.InPlace.take s = s.take := by
  change ((liftM s.dim >>= fun dim =>
    if s.data.size = dim * dim then liftM (Mat.ofColumns dim s.data)
    else liftM (checkedMul dim dim) >>= fun size =>
      liftM (refuse (.elementCount "save_state" size s.data.size) : Outcome (Mat R)) :
    Procedure (Store R) (Mat R)) { s with data := #[] }) = _
  unfold Store.take
  cases s.dim with
  | error fault =>
      rfl
  | ok dim =>
      rw [ok_bind]
      change (if s.data.size = dim * dim then _ else _ : Procedure (Store R) (Mat R)) _ = _
      by_cases hsize : s.data.size = dim * dim
      · rw [if_pos hsize, if_pos hsize]
        rfl
      · rw [if_neg hsize, if_neg hsize]
        cases checkedMul dim dim <;> rfl

theorem readState_eq (final : Bool) :
    readState final e =
      ((e.machine.readState final).1, { e with machine := (e.machine.readState final).2 }) := by
  cases final with
  | false =>
      rfl
  | true =>
      change inside machineField (inside Machine.InPlace.storeField Store.InPlace.take) e = _
      rw [inside_eq, inside_eq, take_eq]
      rfl

theorem agree_saveState (final : Bool) :
    Agree (saveState op final e) (e.saveState op final) := by
  change Agree ((liftM (e.checkState op) >>= fun key => readState final >>= fun matrix =>
    save .saveDensmat (if key = "_method_" then "density_matrix" else key)
      op.saveMode.promoted (.matrix matrix)) e) _
  unfold Experiment.saveState
  cases e.checkState op with
  | error fault =>
      exact Agree.refl _
  | ok key =>
      have hread : (if final then
          ((e.machine.store.take).1, { e.machine with store := (e.machine.store.take).2 })
        else (e.machine.store.copy, e.machine)) = e.machine.readState final := by
        cases final <;> rfl
      change Agree ((readState final >>= _) e) (e.saveMatrix _ _ _ (if final then _ else _))
      rw [hread]
      exact agree_saveMatrix (Or.inl (readState_eq final))

theorem agree_reduced (qubits : List Nat) (final : Bool) :
    Agree (reduced qubits final e) ((e.machine.reduced qubits final).1,
      { e with machine := (e.machine.reduced qubits final).2 }) := by
  change Agree ((liftM (e.machine.requireWhole "save_densmat") >>= fun _ =>
    if qubits.isEmpty then liftM e.machine.store.trace >>= fun t =>
      pure (Mat.ofFn 1 1 fun _ _ => Amplitude.ofReal t)
    else if !e.machine.isWholeRegister qubits then liftM (e.machine.partialTrace qubits)
    else readState final : Procedure (Experiment R) (Mat R)) e) _
  unfold Machine.reduced
  cases e.machine.requireWhole "save_densmat" with
  | error fault =>
      exact Agree.refl _
  | ok _ =>
      left
      change (if qubits.isEmpty then _ else _ : Procedure (Experiment R) (Mat R)) e = _
      dsimp only
      split
      · cases e.machine.store.trace <;> rfl
      · split
        · rfl
        · rw [readState_eq]
          cases final <;> rfl

theorem agree_saveDensmat (final : Bool) :
    Agree (saveDensmat op final e) (e.saveDensmat op final) := by
  unfold saveDensmat Experiment.saveDensmat
  cases saveKey op with
  | error fault =>
      exact Agree.refl _
  | ok key =>
      exact agree_saveMatrix (agree_reduced op.qubits final)

/-!
## Instructions
-/

omit [Scalar R] in
theorem agree_evolve {p : Procedure (Machine R) Unit} {result : Outcome (Machine R)}
    (h : CarriesOut p e.machine result) :
    Agree (inside machineField p e) (e.evolve result) := by
  rw [evolve_eq]
  exact carriesOut_inside rfl h

theorem agree_perform (final : Bool) :
    Agree (perform op final e) (e.perform op final) := by
  unfold perform Experiment.perform
  dsimp only
  cases op.kind with
  | barrier | errorLocation | mark | jump =>
      exact Agree.refl _
  | reset =>
      exact agree_evolve Machine.InPlace.carriesOut_applyReset
  | measure =>
      dsimp only
      rw [draw_eq]
      exact carriesOut_measure _ _ _
  | bfunc =>
      dsimp only
      rw [evolve_eq, map_bind]
      exact carriesOut_inside rfl Classical.InPlace.carriesOut_applyBfunc
  | readoutError =>
      dsimp only
      rw [draw_eq, map_bind]
      exact carriesOut_applyReadout
  | gate =>
      exact agree_evolve Machine.InPlace.carriesOut_applyGate
  | matrix =>
      cases op.matrices with
      | nil =>
          exact Agree.refl _
      | cons matrix _ =>
          exact agree_evolve (Machine.InPlace.carriesOut_applyMatrix matrix)
  | diagonal =>
      exact agree_evolve (Machine.InPlace.carriesOut_applyDiagonal op.params)
  | superop =>
      cases op.matrices with
      | nil =>
          exact Agree.refl _
      | cons matrix _ =>
          exact agree_evolve (Machine.InPlace.carriesOut_applySuperop matrix)
  | kraus =>
      exact agree_evolve (Machine.InPlace.carriesOut_applyKraus op.matrices)
  | setStatevec =>
      exact agree_evolve Machine.InPlace.carriesOut_setVector
  | setDensmat =>
      exact agree_evolve Machine.InPlace.carriesOut_setMatrix
  | saveExpval | saveExpvalVar =>
      dsimp only
      rw [file_eq]
      exact carriesOut_saveExpval
  | saveState =>
      exact agree_saveState final
  | saveDensmat =>
      exact agree_saveDensmat final
  | saveProbs | saveProbsKet =>
      dsimp only
      rw [file_eq]
      exact carriesOut_saveProbs
  | saveAmpsSq =>
      dsimp only
      rw [file_eq]
      exact carriesOut_saveAmpsSq
  | prepare | saveStatevec | saveAmps | setStabilizer =>
      exact Agree.refl _

theorem agree_apply (final : Bool) : Agree (apply op final e) (e.apply op final) := by
  unfold apply Experiment.apply
  rw [get_bind]
  split
  · exact Agree.refl _
  · cases op.qubits.find? fun q => e.machine.width ≤ q with
    | some qubit =>
        exact Agree.refl _
    | none =>
        exact agree_perform final

end Experiment.InPlace

namespace Experiment

variable {e : Experiment R} {op : Instruction R}

omit [Scalar R] in
theorem evolve_of_error {result : Outcome (Machine R)} {fault : Fault}
    (h : (e.evolve result).1 = .error fault) : (e.evolve result).2 = e := by
  cases result with
  | error _ =>
      rfl
  | ok _ =>
      cases h

omit [Scalar R] in
theorem draw_of_error {result : Outcome (Machine R × Source)} {fault : Fault}
    (h : (e.draw result).1 = .error fault) : (e.draw result).2 = e := by
  cases result with
  | error _ =>
      rfl
  | ok _ =>
      cases h

theorem perform_of_error {fault : Fault} (h : (e.perform op false).1 = .error fault) :
    (e.perform op false).2 = e := by
  unfold perform at h ⊢
  dsimp only at h ⊢
  cases hkind : op.kind with
  | barrier | errorLocation | mark | jump | prepare | saveStatevec | saveAmps
  | setStabilizer =>
      rfl
  | reset | bfunc | gate | diagonal | kraus | setStatevec | setDensmat =>
      rw [hkind] at h
      exact evolve_of_error h
  | measure | readoutError =>
      rw [hkind] at h
      exact draw_of_error h
  | matrix | superop =>
      rw [hkind] at h
      dsimp only at h ⊢
      cases hmatrices : op.matrices with
      | nil =>
          rfl
      | cons matrix _ =>
          rw [hmatrices] at h
          exact evolve_of_error h
  | saveExpval | saveExpvalVar | saveProbs | saveProbsKet | saveAmpsSq =>
      rw [hkind] at h
      exact file_of_error h
  | saveState =>
      rw [hkind] at h
      exact saveState_of_error h
  | saveDensmat =>
      rw [hkind] at h
      exact saveDensmat_of_error h

theorem apply_of_error {fault : Fault} (h : (e.apply op false).1 = .error fault) :
    (e.apply op false).2 = e := by
  unfold apply at h ⊢
  split
  · rfl
  · next hallows =>
      rw [if_neg hallows] at h
      cases hfind : op.qubits.find? fun q => e.machine.width ≤ q with
      | some qubit =>
          rfl
      | none =>
          rw [hfind] at h
          exact perform_of_error h

/-- In place, an instruction that is refused leaves the machine with its bits, the archive
and the source as they were; and it is refused for the same cause as at once. -/
theorem InPlace.apply_refused_iff {cause : Refusal} {left : Experiment R} :
    InPlace.apply op false e = (.error (.refused cause), left) ↔
      left = e ∧ e.apply op false = (.error (.refused cause), e) := by
  have hagree : Agree (InPlace.apply op false e) (e.apply op false) :=
    InPlace.agree_apply false
  constructor
  · intro h
    have hsame := hagree.eq_of_refused (Or.inl (congrArg Prod.fst h))
    rw [h] at hsame
    have hkept := apply_of_error (congrArg Prod.fst hsame.symm)
    rw [← hsame] at hkept
    obtain rfl : left = e := hkept
    exact ⟨rfl, hsame.symm⟩
  · rintro ⟨rfl, h⟩
    rw [hagree.eq_of_refused (Or.inr (congrArg Prod.fst h)), h]

end Experiment
end MixedState
