import MixedState.Proofs.Machine.Bits
import MixedState.Proofs.Machine.Saves
import MixedState.Proofs.Results.Leniency

/-!
# Observation does not disturb

Saves and markers change neither the state, nor the classical bits, nor what is drawn.
Where a run succeeds, so does the run without some of them, which ends in the same state
and has saved the same under every key that none of those left out saved under.
-/

namespace MixedState

variable {R : Type}

def Kind.isMarker : Kind -> Bool
  | .barrier | .errorLocation | .mark | .jump => true
  | _ => false

def Kind.observes (kind : Kind) : Bool :=
  kind.isSave || kind.isMarker

/-- The whole state is saved under a name of its own where the key asks for the method. -/
def Instruction.storageKey? (op : Instruction R) : Option String :=
  if op.kind.isSave then
    op.key?.map fun key =>
      if op.kind = .saveState ∧ key = "_method_" then "density_matrix" else key
  else
    none

variable [Scalar R]

namespace Experiment

variable {m : Machine R} {source : Source} {op : Instruction R}

/-!
## Saves
-/

theorem files_put (kind : Kind) (key : String) (mode : SaveMode) (data : SavedData R) :
    Archive.Files (some key) fun archive =>
      (⟨m, archive, source⟩ : Experiment R).put kind key mode data :=
  Archive.files_save m.classical.memoryHex key kind.name mode data

theorem files_key {save : String -> Archive R -> Outcome (Archive R)}
    (hsave : op.kind.isSave = true) (hkind : op.kind ≠ .saveState)
    (h : forall key, Archive.Files (some key) (save key)) :
    Archive.Files op.storageKey? fun archive => saveKey op >>= fun key => save key archive := by
  unfold saveKey Instruction.storageKey?
  rw [if_pos hsave]
  cases op.key? with
  | none =>
      exact .fails _ fun _ => rfl
  | some key =>
      rw [Option.map_some, if_neg fun hstate => hkind hstate.1]
      exact h key

theorem files_saveProbs (hsave : op.kind.isSave = true) (hkind : op.kind ≠ .saveState) :
    Archive.Files op.storageKey? fun archive =>
      (⟨m, archive, source⟩ : Experiment R).saveProbs op := by
  unfold saveProbs
  apply files_key hsave hkind
  intro key
  dsimp only
  apply Archive.Files.after
  intro weights
  exact files_put _ _ _ _

theorem files_saveAmpsSq (hsave : op.kind.isSave = true) (hkind : op.kind ≠ .saveState) :
    Archive.Files op.storageKey? fun archive =>
      (⟨m, archive, source⟩ : Experiment R).saveAmpsSq op := by
  unfold saveAmpsSq
  dsimp only
  apply Archive.Files.after
  intro _
  apply files_key hsave hkind
  intro key
  split
  · exact .fails _ fun _ => rfl
  · apply Archive.Files.after
    intro dim
    split
    · exact .fails _ fun _ => rfl
    · apply Archive.Files.after
      intro values
      exact files_put _ _ _ _

theorem files_saveExpval (hsave : op.kind.isSave = true) (hkind : op.kind ≠ .saveState) :
    Archive.Files op.storageKey? fun archive =>
      (⟨m, archive, source⟩ : Experiment R).saveExpval op := by
  unfold saveExpval
  dsimp only
  apply Archive.Files.after
  intro _
  apply files_key hsave hkind
  intro key
  split
  · exact .fails _ fun _ => rfl
  · apply Archive.Files.after
    rintro ⟨mean, sqMean⟩
    exact files_put _ _ _ _

/-- A step from a machine and a source, whatever the archive holds: it leaves the archive
alone, or it saves and leaves everything else alone. -/
inductive Effect (m : Machine R) (source : Source) (op : Instruction R)
    (step : Archive R -> Step R) : Prop
  | quiet (outcome : Outcome Unit) (m' : Machine R) (source' : Source)
      (hsame : op.kind.observes = true -> m' = m ∧ source' = source)
      (h : forall archive, step archive = (outcome, ⟨m', archive, source'⟩))
  | files (save : Archive R -> Outcome (Archive R))
      (hfiles : Archive.Files op.storageKey? save)
      (h : forall archive, step archive = (⟨m, archive, source⟩ : Experiment R).file (save archive))

theorem effect_same (outcome : Outcome Unit) :
    Effect m source op fun archive => (outcome, ⟨m, archive, source⟩) :=
  .quiet outcome m source (fun _ => ⟨rfl, rfl⟩) fun _ => rfl

theorem effect_evolve (hkind : op.kind.observes = false) (result : Outcome (Machine R)) :
    Effect m source op fun archive => (⟨m, archive, source⟩ : Experiment R).evolve result := by
  cases result with
  | error fault =>
      exact effect_same _
  | ok m' =>
      refine .quiet (.ok ()) m' source (fun hobserves => ?_) fun _ => rfl
      rw [hkind] at hobserves
      cases hobserves

theorem effect_draw (hkind : op.kind.observes = false) (result : Outcome (Machine R × Source)) :
    Effect m source op fun archive => (⟨m, archive, source⟩ : Experiment R).draw result := by
  cases result with
  | error fault =>
      exact effect_same _
  | ok drawn =>
      refine .quiet (.ok ()) drawn.1 drawn.2 (fun hobserves => ?_) fun _ => rfl
      rw [hkind] at hobserves
      cases hobserves

theorem effect_saveDensmat (hkind : op.kind = .saveDensmat) :
    Effect m source op fun archive =>
      (⟨m, archive, source⟩ : Experiment R).saveDensmat op false := by
  have hfiles : Archive.Files op.storageKey? fun archive => saveKey op >>= fun key =>
      (m.reduced op.qubits false).1 >>= fun matrix =>
        (⟨m, archive, source⟩ : Experiment R).put op.kind key op.saveMode (.matrix matrix) := by
    apply files_key (by rw [hkind]; rfl) (by rw [hkind]; decide)
    intro key
    apply Archive.Files.after
    intro matrix
    exact files_put _ _ _ _
  refine .files _ hfiles fun archive => ?_
  unfold saveDensmat
  cases hkey : saveKey op with
  | error fault =>
      rfl
  | ok key =>
      unfold saveMatrix
      dsimp only
      rw [Machine.reduced_false]
      rfl

theorem effect_saveState (hkind : op.kind = .saveState) :
    Effect m source op fun archive =>
      (⟨m, archive, source⟩ : Experiment R).saveState op false := by
  have hcheck : forall archive, (⟨m, archive, source⟩ : Experiment R).checkState op =
      (⟨m, .empty, source⟩ : Experiment R).checkState op :=
    fun _ => rfl
  cases hkey : (⟨m, .empty, source⟩ : Experiment R).checkState op with
  | error fault =>
      refine .quiet (.error fault) m source (fun _ => ⟨rfl, rfl⟩) fun archive => ?_
      unfold saveState
      rw [hcheck, hkey]
  | ok key =>
      have hstorage : op.storageKey? =
          some (if key = "_method_" then "density_matrix" else key) := by
        unfold Instruction.storageKey?
        rw [(checkState_eq_ok_iff.mp hkey).2.2, hkind]
        simp [Kind.isSave]
      have hfiles : Archive.Files op.storageKey? fun archive => m.store.copy >>= fun matrix =>
          (⟨m, archive, source⟩ : Experiment R).put .saveDensmat
            (if key = "_method_" then "density_matrix" else key) op.saveMode.promoted
            (.matrix matrix) := by
        rw [hstorage]
        apply Archive.Files.after
        intro matrix
        exact files_put _ _ _ _
      refine .files _ hfiles fun archive => ?_
      unfold saveState
      rw [hcheck, hkey]
      rfl

/-!
## Instructions
-/

theorem effect_perform (m : Machine R) (source : Source) (op : Instruction R) :
    Effect m source op fun archive => (⟨m, archive, source⟩ : Experiment R).perform op false := by
  unfold perform
  dsimp only
  cases hkind : op.kind with
  | barrier | errorLocation | mark | jump | prepare | saveStatevec | saveAmps
  | setStabilizer =>
      exact effect_same _
  | reset | bfunc | gate | diagonal | kraus | setStatevec | setDensmat =>
      exact effect_evolve (by rw [hkind]; rfl) _
  | measure | readoutError =>
      exact effect_draw (by rw [hkind]; rfl) _
  | matrix | superop =>
      cases op.matrices with
      | nil =>
          exact effect_same _
      | cons matrix rest =>
          exact effect_evolve (by rw [hkind]; rfl) _
  | saveExpval | saveExpvalVar =>
      exact .files _ (files_saveExpval (by rw [hkind]; rfl) (by rw [hkind]; decide))
        fun _ => rfl
  | saveProbs | saveProbsKet =>
      exact .files _ (files_saveProbs (by rw [hkind]; rfl) (by rw [hkind]; decide)) fun _ => rfl
  | saveAmpsSq =>
      exact .files _ (files_saveAmpsSq (by rw [hkind]; rfl) (by rw [hkind]; decide)) fun _ => rfl
  | saveState =>
      exact effect_saveState hkind
  | saveDensmat =>
      exact effect_saveDensmat hkind

theorem effect_apply (m : Machine R) (source : Source) (op : Instruction R) :
    Effect m source op fun archive => (⟨m, archive, source⟩ : Experiment R).apply op false := by
  cases hallows : m.classical.allows op with
  | false =>
      refine .quiet (.ok ()) m source (fun _ => ⟨rfl, rfl⟩) fun archive => ?_
      unfold apply
      rw [hallows]
      rfl
  | true =>
      cases houtside : op.qubits.find? fun q => m.width ≤ q with
      | some qubit =>
          refine .quiet (refuse (.qubitOutOfRange op.name qubit m.width)) m source
            (fun _ => ⟨rfl, rfl⟩) fun archive => ?_
          unfold apply
          rw [hallows, houtside]
          rfl
      | none =>
          have happly : (fun archive => (⟨m, archive, source⟩ : Experiment R).apply op false) =
              fun archive => (⟨m, archive, source⟩ : Experiment R).perform op false := by
            funext archive
            unfold apply
            rw [hallows, houtside]
            rfl
          rw [happly]
          exact effect_perform m source op

variable {a b : Archive R} {full : Experiment R}

theorem apply_of_isLenient (hlenient : a.IsLenient b)
    (h : (⟨m, b, source⟩ : Experiment R).apply op false = (.ok (), full)) :
    exists a', (⟨m, a, source⟩ : Experiment R).apply op false =
        (.ok (), ⟨full.machine, a', full.source⟩) ∧
      a'.IsLenient full.archive ∧
      forall key, Archive.AgreeAt key a b -> Archive.AgreeAt key a' full.archive := by
  cases effect_apply m source op with
  | quiet outcome m' source' hsame heffect =>
      rw [heffect b] at h
      cases h
      exact ⟨a, heffect a, hlenient, fun _ hagree => hagree⟩
  | files save hfiles heffect =>
      rw [heffect b] at h
      cases hsave : save b with
      | error fault =>
          rw [hsave] at h
          cases h
      | ok b' =>
          rw [hsave] at h
          cases h
          rcases hfiles.both hlenient hsave with ⟨a', hsave', hlenient', hagree⟩
          refine ⟨a', ?_, hlenient', hagree⟩
          rw [heffect a, hsave']
          rfl

theorem apply_of_observes (hkind : op.kind.observes = true) (hlenient : a.IsLenient b)
    (h : (⟨m, b, source⟩ : Experiment R).apply op false = (.ok (), full)) :
    full.machine = m ∧ full.source = source ∧ a.IsLenient full.archive ∧
      forall key, ¬(m.classical.allows op = true ∧ op.storageKey? = some key) ->
        Archive.AgreeAt key b full.archive := by
  cases hallows : m.classical.allows op with
  | false =>
      rcases apply_eq_ok h with ⟨_, rfl⟩ | ⟨hmet, _⟩
      · exact ⟨rfl, rfl, hlenient, fun key _ => .refl key b⟩
      · rw [hallows] at hmet
        cases hmet
  | true =>
      cases effect_apply m source op with
      | quiet outcome m' source' hsame heffect =>
          rw [heffect b] at h
          cases h
          exact ⟨(hsame hkind).1, (hsame hkind).2, hlenient, fun key _ => .refl key b⟩
      | files save hfiles heffect =>
          rw [heffect b] at h
          cases hsave : save b with
          | error fault =>
              rw [hsave] at h
              cases h
          | ok b' =>
              rw [hsave] at h
              cases h
              rcases hfiles.single hlenient hsave with ⟨hlenient', hagree⟩
              exact ⟨rfl, rfl, hlenient', fun key hne => hagree key fun hkey => hne ⟨rfl, hkey⟩⟩

end Experiment

/-!
## Runs
-/

/-- An instruction of a list, with whether it is left out of a shorter one. -/
structure Draft (R : Type) where
  op : Instruction R
  omitted : Bool

namespace Draft

def full (drafts : List (Draft R)) : List (Instruction R) :=
  drafts.map op

def reduced (drafts : List (Draft R)) : List (Instruction R) :=
  (drafts.filter fun draft => !draft.omitted).map op

end Draft

namespace Experiment

/-- What the omitted instructions store under in a run of the full list: those whose
condition is met when they come. -/
def omittedKeys (e : Experiment R) : List (Draft R) -> List String
  | [] => []
  | draft :: rest =>
      (if draft.omitted && e.machine.classical.allows draft.op then
        draft.op.storageKey?.toList
      else
        []) ++ (e.apply draft.op false).2.omittedKeys rest

theorem applyAll_reduced_of_isLenient {m : Machine R} {source : Source} {a b : Archive R}
    {full : Experiment R} {drafts : List (Draft R)}
    (hdrafts : forall draft, draft ∈ drafts -> draft.omitted = true ->
      draft.op.kind.observes = true)
    (hlenient : a.IsLenient b)
    (h : (⟨m, b, source⟩ : Experiment R).applyAll (Draft.full drafts) false = (.ok (), full)) :
    exists a', (⟨m, a, source⟩ : Experiment R).applyAll (Draft.reduced drafts) false =
        (.ok (), ⟨full.machine, a', full.source⟩) ∧
      forall key, key ∉ (⟨m, b, source⟩ : Experiment R).omittedKeys drafts ->
        Archive.AgreeAt key a b -> Archive.AgreeAt key a' full.archive := by
  -- The reduced run stays at the same machine and source, with an archive that takes as much.
  induction drafts generalizing m source a b with
  | nil =>
      cases h
      exact ⟨a, rfl, fun _ _ hagree => hagree⟩
  | cons draft rest ih =>
      rcases List.forall_mem_cons.mp hdrafts with ⟨hdraft, hrest⟩
      rcases applyAll_cons_eq_ok_iff.mp h with ⟨⟨m', b', source'⟩, hstep, hrun⟩
      rw [Bool.false_and] at hstep
      have hkeys : (⟨m, b, source⟩ : Experiment R).omittedKeys (draft :: rest) =
          (if draft.omitted && m.classical.allows draft.op then draft.op.storageKey?.toList
            else []) ++ (⟨m', b', source'⟩ : Experiment R).omittedKeys rest := by
        unfold omittedKeys
        rw [hstep]
        cases rest <;> rfl
      cases homitted : draft.omitted with
      | true =>
          rcases apply_of_observes (hdraft homitted) hlenient hstep with
            ⟨rfl, rfl, hlenient', hagree⟩
          rcases ih hrest hlenient' hrun with ⟨a', hreduced, hkept⟩
          refine ⟨a', ?_, ?_⟩
          · unfold Draft.reduced
            rw [List.filter_cons_of_neg (by rw [homitted]; decide)]
            exact hreduced
          · intro key hkey hab
            rw [hkeys, homitted, Bool.true_and] at hkey
            rcases not_or.mp (fun hor => hkey (List.mem_append.mpr hor)) with ⟨hfirst, hlater⟩
            have hother : ¬(m'.classical.allows draft.op = true ∧
                draft.op.storageKey? = some key) := by
              rintro ⟨hallows, hstorage⟩
              rw [if_pos hallows, hstorage] at hfirst
              exact hfirst (List.mem_singleton.mpr rfl)
            exact hkept key hlater (hab.trans (hagree key hother))
      | false =>
          rcases apply_of_isLenient hlenient hstep with ⟨a₁, hstep', hlenient', hagree⟩
          rcases ih hrest hlenient' hrun with ⟨a', hreduced, hkept⟩
          refine ⟨a', ?_, ?_⟩
          · unfold Draft.reduced
            rw [List.filter_cons_of_pos (by rw [homitted]; rfl)]
            exact applyAll_cons_eq_ok_iff.mpr ⟨_, hstep', hreduced⟩
          · intro key hkey hab
            rw [hkeys, homitted, Bool.false_and] at hkey
            exact hkept key hkey (hagree key hab)

/-- Where instructions succeed, so do those that are left when some saves and markers are
omitted, from the same experiment.  Both runs end with the same machine and source, and
hold the same under every key that no omitted instruction stores under. -/
theorem applyAll_reduced {e full : Experiment R} {drafts : List (Draft R)}
    (hdrafts : forall draft, draft ∈ drafts -> draft.omitted = true ->
      draft.op.kind.observes = true)
    (h : e.applyAll (Draft.full drafts) false = (.ok (), full)) :
    exists reduced, e.applyAll (Draft.reduced drafts) false = (.ok (), reduced) ∧
      reduced.machine = full.machine ∧ reduced.source = full.source ∧
      forall key, key ∉ e.omittedKeys drafts ->
        Archive.AgreeAt key reduced.archive full.archive := by
  rcases e with ⟨m, archive, source⟩
  rcases applyAll_reduced_of_isLenient hdrafts (Archive.IsLenient.refl archive) h with
    ⟨kept, hreduced, hkept⟩
  exact ⟨_, hreduced, rfl, rfl, fun key hkey => hkept key hkey (.refl key archive)⟩

/-- A flip of one qubit and its state, saved after a look at the probabilities. -/
def watchedFlip : List (Draft Float) :=
  [⟨.gate "x" [0] [], false⟩, ⟨.save .saveProbs [0] "seen" .single, true⟩,
    ⟨.ofKind .mark, true⟩, ⟨.save .saveState [0] "_method_" .single, false⟩]

def watchedQubit : Experiment Float :=
  ⟨.ofStore ⟨1, 0, #[1, 0, 0, 0]⟩, .empty, .ofSeed 0⟩

theorem applyAll_reduced_watched :
    (forall draft, draft ∈ watchedFlip -> draft.omitted = true ->
        draft.op.kind.observes = true) ∧
      exists full reduced,
        watchedQubit.applyAll (Draft.full watchedFlip) false = (.ok (), full) ∧
        watchedQubit.applyAll (Draft.reduced watchedFlip) false = (.ok (), reduced) ∧
        reduced.machine = full.machine ∧
        reduced.archive.average.find? "density_matrix" =
          full.archive.average.find? "density_matrix" ∧
        (full.archive.latest.find? "seen").isSome = true ∧
        (full.archive.average.find? "density_matrix").isSome = true := by
  have hdrafts : forall draft, draft ∈ watchedFlip -> draft.omitted = true ->
      draft.op.kind.observes = true := by
    decide
  have hrun : exists full,
      watchedQubit.applyAll (Draft.full watchedFlip) false = (.ok (), full) ∧
      (full.archive.latest.find? "seen").isSome = true ∧
      (full.archive.average.find? "density_matrix").isSome = true :=
    ⟨_, rfl, rfl, rfl⟩
  rcases hrun with ⟨full, hfull, hseen, hstate⟩
  rcases applyAll_reduced hdrafts hfull with ⟨reduced, hreduced, hmachine, _, hagree⟩
  have hkeys : watchedQubit.omittedKeys watchedFlip = ["seen"] := rfl
  have hkey : "density_matrix" ∉ watchedQubit.omittedKeys watchedFlip := by
    rw [hkeys]
    decide
  exact ⟨hdrafts, full, reduced, hfull, hreduced, hmachine,
    (hagree "density_matrix" hkey .average).1, hseen, hstate⟩

end Experiment
end MixedState
