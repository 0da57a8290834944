import MixedState.Machine.Run
import MixedState.Proofs.Machine.Operators

/-!
# Saves that take the state out

A save leaves the machine as it is, unless it is final and saves the whole register.
Such a save takes the buffer out of the store before the archive accepts the data, so
that the state is lost where the archive refuses it.
-/

namespace MixedState

variable {R : Type} [Scalar R]

namespace Store

def IsFull (s : Store R) : Prop :=
  s.data.size = twoPow s.qubits * twoPow s.qubits

theorem take_fst_of_full {s : Store R} (h : s.IsFull) : s.take.1 = s.copy := by
  have hsize : s.data.size = twoPow s.qubits * twoPow s.qubits := h
  unfold take copy
  dsimp only
  cases hdim : s.dim with
  | error fault =>
      rfl
  | ok dim =>
      rcases checkedShift_eq_ok_iff.mp hdim with ⟨_, rfl⟩
      rw [ok_bind, ok_bind, if_pos hsize]

theorem take_fst_of_empty {s : Store R} (h : s.data = #[]) (hn : s.qubits < 32) :
    s.take.1 = refuse (.elementCount "save_state" (twoPow s.qubits * twoPow s.qubits) 0) := by
  have hpos := Nat.mul_pos (twoPow_pos s.qubits) (twoPow_pos s.qubits)
  have hword : twoPow s.qubits * twoPow s.qubits < wordSize := by
    rw [← twoPow_add]
    exact Nat.pow_lt_pow_right (by decide) (show s.qubits + s.qubits < 64 by omega)
  unfold take dim
  dsimp only
  rw [checkedShift_of_lt (Nat.lt_trans hn (by decide)), ok_bind, h, Array.size_empty,
    if_neg (Nat.ne_of_lt hpos), checkedMul_of_lt hword]
  rfl

theorem copy_of_empty {s : Store R} (h : s.data = #[]) (hn : s.qubits < 32) :
    s.copy = crash := by
  have hpos := Nat.mul_pos (twoPow_pos s.qubits) (twoPow_pos s.qubits)
  unfold copy dim
  rw [checkedShift_of_lt (Nat.lt_trans hn (by decide)), ok_bind, h]
  exact if_neg (Nat.not_le_of_lt hpos)

end Store

namespace Machine

def emptied (m : Machine R) : Machine R :=
  { m with store := { m.store with data := #[] } }

omit [Scalar R] in
theorem emptied_eq_self_iff {m : Machine R} : m.emptied = m ↔ m.store.data = #[] := by
  constructor
  · intro h
    rw [← h]
    rfl
  · intro h
    unfold emptied
    rw [← h]

def readState (m : Machine R) (final : Bool) : Outcome (Mat R) × Machine R :=
  if final then (m.store.take.1, m.emptied) else (m.store.copy, m)

theorem reduced_of_whole {m : Machine R} {qubits : List Nat} (hsplit : m.isSplit = false)
    (hne : qubits.isEmpty = false) (hall : m.isWholeRegister qubits = true) (final : Bool) :
    m.reduced qubits final = m.readState final := by
  unfold reduced requireWhole
  rw [hsplit, if_neg Bool.false_ne_true, hne, hall]
  rfl

theorem reduced_false (m : Machine R) (qubits : List Nat) : (m.reduced qubits false).2 = m := by
  unfold reduced
  split
  · rfl
  · split
    · rfl
    · split
      · rfl
      · rfl

theorem reduced_of_part {m : Machine R} {qubits : List Nat}
    (h : qubits.isEmpty = true ∨ m.isWholeRegister qubits = false) (final : Bool) :
    m.reduced qubits final = m.reduced qubits false := by
  unfold reduced
  split
  · rfl
  · by_cases hempty : qubits.isEmpty = true
    · rw [if_pos hempty, if_pos hempty]
    · rw [if_neg hempty, if_neg hempty, h.resolve_left hempty]
      rfl

end Machine

namespace Experiment

variable {e : Experiment R} {op : Instruction R}

/-!
## Saves that leave the machine
-/

omit [Scalar R] in
theorem machine_file (e : Experiment R) (result : Outcome (Archive R)) :
    (e.file result).2.machine = e.machine := by
  cases result with
  | error fault =>
      rfl
  | ok archive =>
      rfl

omit [Scalar R] in
theorem file_of_error {result : Outcome (Archive R)} {fault : Fault}
    (h : (e.file result).1 = .error fault) : (e.file result).2 = e := by
  cases result with
  | error fault =>
      rfl
  | ok archive =>
      cases h

theorem saveMatrix_of_error {kind : Kind} {key : String} {mode : SaveMode}
    {read : Outcome (Mat R) × Machine R} {fault : Fault}
    (h : (e.saveMatrix kind key mode read).1 = .error fault) :
    (e.saveMatrix kind key mode read).2 = { e with machine := read.2 } :=
  file_of_error h

theorem machine_saveMatrix (e : Experiment R) (kind : Kind) (key : String) (mode : SaveMode)
    (read : Outcome (Mat R) × Machine R) :
    (e.saveMatrix kind key mode read).2.machine = read.2 :=
  machine_file _ _

theorem machine_saveState (e : Experiment R) (op : Instruction R) :
    (e.saveState op false).2.machine = e.machine := by
  unfold saveState
  split
  · rfl
  · exact machine_saveMatrix _ _ _ _ _

theorem saveState_of_error {fault : Fault} (h : (e.saveState op false).1 = .error fault) :
    (e.saveState op false).2 = e := by
  unfold saveState at h ⊢
  cases hkey : e.checkState op with
  | error fault =>
      rfl
  | ok key =>
      rw [hkey] at h
      exact saveMatrix_of_error h

theorem saveDensmat_of_error {fault : Fault} (h : (e.saveDensmat op false).1 = .error fault) :
    (e.saveDensmat op false).2 = e := by
  unfold saveDensmat at h ⊢
  cases hkey : saveKey op with
  | error fault =>
      rfl
  | ok key =>
      rw [hkey] at h
      rw [saveMatrix_of_error h, Machine.reduced_false]

theorem machine_saveDensmat (e : Experiment R) (op : Instruction R) :
    (e.saveDensmat op false).2.machine = e.machine := by
  unfold saveDensmat
  split
  · rfl
  · rw [machine_saveMatrix, Machine.reduced_false]

/-!
## Final saves
-/

def emptied (e : Experiment R) : Experiment R :=
  { e with machine := e.machine.emptied }

omit [Scalar R] in
theorem emptied_eq_self_iff : e.emptied = e ↔ e.machine.emptied = e.machine := by
  constructor
  · intro h
    exact congrArg Experiment.machine h
  · intro h
    unfold emptied
    rw [h]

def takesState (e : Experiment R) (op : Instruction R) : Bool :=
  e.machine.classical.allows op && op.qubits.all (fun q => q < e.machine.width)
    && op.key?.isSome &&
    match op.kind with
    | .saveState => op.qubits.length == e.machine.width
    | .saveDensmat => !op.qubits.isEmpty && e.machine.isWholeRegister op.qubits
    | _ => false

omit [Scalar R] in
theorem takesState_iff :
    e.takesState op = true ↔
      (e.machine.classical.allows op = true ∧ (forall q, q ∈ op.qubits -> q < e.machine.width)) ∧
        (exists key, op.key? = some key) ∧
        (op.kind = .saveState ∧ op.qubits.length = e.machine.width ∨
          op.kind = .saveDensmat ∧ op.qubits.isEmpty = false ∧
            e.machine.isWholeRegister op.qubits = true) := by
  unfold takesState
  rw [Bool.and_eq_true, Bool.and_eq_true, Bool.and_eq_true, Option.isSome_iff_exists]
  cases op.kind <;> simp [and_assoc]

omit [Scalar R] in
theorem saveKey_eq_ok_iff {key : String} : saveKey op = .ok key ↔ op.key? = some key := by
  unfold saveKey
  cases op.key? with
  | none =>
      simp [refuse]
  | some found =>
      simp

omit [Scalar R] in
theorem checkState_eq_ok_iff {key : String} :
    e.checkState op = .ok key ↔
      e.machine.isSplit = false ∧ op.qubits.length = e.machine.width ∧ op.key? = some key := by
  unfold checkState Machine.requireWhole
  cases e.machine.isSplit with
  | true =>
      simp [refuse, bind, Except.bind]
  | false =>
      by_cases hlen : op.qubits.length = e.machine.width
      · simp [hlen, saveKey_eq_ok_iff, bind, Except.bind]
      · simp [hlen, refuse, bind, Except.bind]

theorem apply_of_allows (hallows : e.machine.classical.allows op = true)
    (hqs : forall q, q ∈ op.qubits -> q < e.machine.width) (final : Bool) :
    e.apply op final = e.perform op final := by
  have hnone : (op.qubits.find? fun q => e.machine.width ≤ q) = none := by
    simpa using hqs
  unfold apply
  rw [hallows, hnone]
  rfl

theorem apply_congr_perform
    (h : e.machine.classical.allows op = true ->
      (forall q, q ∈ op.qubits -> q < e.machine.width) ->
        e.perform op true = e.perform op false) :
    e.apply op true = e.apply op false := by
  unfold apply
  split
  · rfl
  · next hallows =>
      split
      · rfl
      · next hnone =>
          exact h (by simpa using hallows) (by simpa using hnone)

theorem saveState_true
    (h : ¬((exists key, op.key? = some key) ∧ op.qubits.length = e.machine.width)) :
    e.saveState op true = e.saveState op false := by
  unfold saveState
  cases hkey : e.checkState op with
  | error fault =>
      rfl
  | ok key =>
      rcases checkState_eq_ok_iff.mp hkey with ⟨_, hlen, hkey⟩
      exact absurd ⟨⟨key, hkey⟩, hlen⟩ h

theorem saveDensmat_true
    (h : ¬((exists key, op.key? = some key) ∧ op.qubits.isEmpty = false ∧
      e.machine.isWholeRegister op.qubits = true)) :
    e.saveDensmat op true = e.saveDensmat op false := by
  unfold saveDensmat
  cases hkey : saveKey op with
  | error fault =>
      rfl
  | ok key =>
      have hpart : op.qubits.isEmpty = true ∨ e.machine.isWholeRegister op.qubits = false := by
        cases hempty : op.qubits.isEmpty with
        | true =>
            exact Or.inl rfl
        | false =>
            right
            rw [← Bool.not_eq_true]
            intro hall
            exact h ⟨⟨key, saveKey_eq_ok_iff.mp hkey⟩, hempty, hall⟩
      rw [Machine.reduced_of_part hpart]

theorem apply_of_not_takesState (hkind : op.kind = .saveState ∨ op.kind = .saveDensmat)
    (h : e.takesState op = false) : e.apply op true = e.apply op false := by
  have hnot : ¬e.takesState op = true := by
    rw [h]
    exact Bool.false_ne_true
  rw [takesState_iff] at hnot
  apply apply_congr_perform
  intro hallows hqs
  unfold perform
  rcases hkind with hkind | hkind
  · rw [hkind]
    apply saveState_true
    rintro ⟨hkey, hlen⟩
    exact hnot ⟨⟨hallows, hqs⟩, hkey, Or.inl ⟨hkind, hlen⟩⟩
  · rw [hkind]
    apply saveDensmat_true
    rintro ⟨hkey, hwhole⟩
    exact hnot ⟨⟨hallows, hqs⟩, hkey, Or.inr ⟨hkind, hwhole⟩⟩

/-- Where the state is taken out, a final save and a copying one save what they read. -/
theorem apply_of_takesState (hsplit : e.machine.isSplit = false)
    (h : e.takesState op = true) :
    exists kind key mode, forall final, e.apply op final =
      e.saveMatrix kind key mode (e.machine.readState final) := by
  rcases takesState_iff.mp h with ⟨⟨hallows, hqs⟩, ⟨key, hkey⟩, hkind⟩
  rcases hkind with ⟨hkind, hlen⟩ | ⟨hkind, hempty, hall⟩
  · exists .saveDensmat
    exists if key = "_method_" then "density_matrix" else key
    exists op.saveMode.promoted
    intro final
    rw [apply_of_allows hallows hqs]
    unfold perform saveState
    rw [hkind, checkState_eq_ok_iff.mpr ⟨hsplit, hlen, hkey⟩]
    cases final <;> rfl
  · exists op.kind
    exists key
    exists op.saveMode
    intro final
    rw [apply_of_allows hallows hqs]
    unfold perform saveDensmat
    rw [saveKey_eq_ok_iff.mpr hkey, ← Machine.reduced_of_whole hsplit hempty hall, hkind]

theorem apply_save_false (hkind : op.kind = .saveState ∨ op.kind = .saveDensmat) :
    (e.apply op false).2.machine = e.machine ∧
      forall fault, (e.apply op false).1 = .error fault -> (e.apply op false).2 = e := by
  unfold apply
  split
  · exact ⟨rfl, fun _ _ => rfl⟩
  · split
    · exact ⟨rfl, fun _ _ => rfl⟩
    · unfold perform
      rcases hkind with hkind | hkind
      · rw [hkind]
        exact ⟨machine_saveState e op, fun _ hfault => saveState_of_error hfault⟩
      · rw [hkind]
        exact ⟨machine_saveDensmat e op, fun _ hfault => saveDensmat_of_error hfault⟩

theorem saveMatrix_emptied (kind : Kind) (key : String) (mode : SaveMode)
    (matrix : Outcome (Mat R)) :
    e.saveMatrix kind key mode (matrix, e.machine.emptied) =
      ((e.saveMatrix kind key mode (matrix, e.machine)).1,
        (e.saveMatrix kind key mode (matrix, e.machine)).2.emptied) := by
  have hput : forall u : Mat R,
      put { e with machine := e.machine.emptied } kind key mode (.matrix u) =
        e.put kind key mode (.matrix u) := fun _ => rfl
  unfold saveMatrix
  cases matrix with
  | error fault =>
      rfl
  | ok u =>
      change file _ (put _ _ _ _ (.matrix u)) = _
      rw [hput]
      change _ = ((e.file (e.put kind key mode (.matrix u))).1,
        (e.file (e.put kind key mode (.matrix u))).2.emptied)
      cases e.put kind key mode (.matrix u) with
      | error fault =>
          rfl
      | ok archive =>
          rfl

/-- A final save of a state against one that copies it.  They end alike and save alike;
the final one loses the state that it takes out, also where the archive refuses it. -/
theorem apply_final_save (hkind : op.kind = .saveState ∨ op.kind = .saveDensmat)
    (hsplit : e.machine.isSplit = false) :
    (e.takesState op = false -> e.apply op true = e.apply op false) ∧
      (e.takesState op = true -> e.machine.store.IsFull ->
        e.apply op true = ((e.apply op false).1, (e.apply op false).2.emptied)) ∧
      (e.takesState op = true -> e.machine.store.data = #[] -> e.machine.store.qubits < 32 ->
        e.apply op true = (refuse (.elementCount "save_state"
          (twoPow e.machine.store.qubits * twoPow e.machine.store.qubits) 0), e) ∧
          e.apply op false = (crash, e)) ∧
      ((e.apply op false).2.machine = e.machine ∧
        forall fault, (e.apply op false).1 = .error fault -> (e.apply op false).2 = e) ∧
      forall fault, (e.apply op true).1 = .error fault ->
        ((e.apply op true).2 = e ↔
          e.takesState op = false ∨ e.machine.store.data = #[]) := by
  constructor
  · exact apply_of_not_takesState hkind
  constructor
  · intro htakes hfull
    rcases apply_of_takesState hsplit htakes with ⟨kind, key, mode, happly⟩
    rw [happly, happly]
    change e.saveMatrix kind key mode (e.machine.store.take.1, e.machine.emptied) = _
    rw [Store.take_fst_of_full hfull, saveMatrix_emptied]
    rfl
  constructor
  · intro htakes hempty hn
    rcases apply_of_takesState hsplit htakes with ⟨kind, key, mode, happly⟩
    rw [happly, happly]
    change e.saveMatrix kind key mode (e.machine.store.take.1, e.machine.emptied) = _ ∧
      e.saveMatrix kind key mode (e.machine.store.copy, e.machine) = _
    rw [Store.take_fst_of_empty hempty hn, Store.copy_of_empty hempty hn,
      Machine.emptied_eq_self_iff.mpr hempty]
    exact ⟨rfl, rfl⟩
  constructor
  · exact apply_save_false hkind
  · intro fault hfault
    cases htakes : e.takesState op with
    | false =>
        rw [apply_of_not_takesState hkind htakes] at hfault ⊢
        simp [(apply_save_false hkind).2 fault hfault]
    | true =>
        rcases apply_of_takesState hsplit htakes with ⟨kind, key, mode, happly⟩
        rw [happly] at hfault ⊢
        rw [saveMatrix_of_error hfault, ← Machine.emptied_eq_self_iff]
        change e.emptied = e ↔ _
        rw [emptied_eq_self_iff]
        simp

/-- One qubit, with a number under a key, which no matrix can be averaged with. -/
def averagedNumber : Experiment Float :=
  { machine := .ofStore ⟨1, 0, #[1, 0, 0, 0]⟩
    archive := { Archive.empty with average := KeyMap.empty.insert "a" (.ofFirst (.scalar 1)) }
    source := .ofSeed 0 }

theorem apply_final_save_refused :
    (averagedNumber.apply (.save .saveState [0] "a" .single) true).1 =
        refuse (.elementCount "save_densmat 'a'" 1 4) ∧
      (averagedNumber.apply (.save .saveState [0] "a" .single) true).2 =
        averagedNumber.emptied ∧
      (averagedNumber.apply (.save .saveState [0] "a" .single) false).2 = averagedNumber ∧
      averagedNumber.emptied ≠ averagedNumber := by
  have hrefused : (averagedNumber.apply (.save .saveState [0] "a" .single) false).1 =
      refuse (.elementCount "save_densmat 'a'" 1 4) := rfl
  have hheld : averagedNumber.machine.store.data ≠ #[] :=
    fun hempty => absurd (congrArg Array.size hempty) (by decide)
  rcases apply_final_save (show (Instruction.save .saveState [0] "a" .single).kind = _ ∨ _
    from Or.inl rfl) (show averagedNumber.machine.isSplit = false from rfl) with
    ⟨_, hfinal, _, ⟨_, hkept⟩, _⟩
  have hplain := hkept _ hrefused
  have hlost := hfinal rfl rfl
  rw [hrefused, hplain] at hlost
  refine ⟨congrArg Prod.fst hlost, congrArg Prod.snd hlost, hplain, ?_⟩
  rw [Ne, emptied_eq_self_iff, Machine.emptied_eq_self_iff]
  exact hheld

end Experiment
end MixedState
