import MixedState.InPlace.Machine
import MixedState.Proofs.InPlace.Procedure

/-!
# Operators in place change all or nothing

Every operator makes its checks before its first kernel, and a kernel that follows
another can crash but not be refused.
-/

namespace MixedState

open Procedure

variable {R : Type} [Scalar R]

namespace Store.InPlace

variable {s : Store R} {qubits : List Nat}

omit [Scalar R] in
theorem carriesOut_run (kernel : Buffer R -> Outcome (Buffer R)) :
    CarriesOut (run kernel) s (s.transform kernel) :=
  carriesOut_get (carriesOut_check fun data _ => carriesOut_set { s with data := data })

omit [Scalar R] in
@[simp] theorem noRefusal_transform {kernel : Buffer R -> Outcome (Buffer R)} :
    NoRefusal (s.transform kernel) ↔ NoRefusal (kernel s.data) := by
  simp [transform]

omit [Scalar R] in
@[simp] theorem noRefusal_columnBits : NoRefusal (s.columnBits qubits) :=
  noRefusal_shiftPositions _ _

omit [Scalar R] in
/-- The kernel on the rows leaves the number of qubits, from which the column bits are
computed. -/
theorem carriesOut_onSides {kernel : Bool -> List Nat -> Buffer R -> Outcome (Buffer R)}
    (hkernel : forall bits b, NoRefusal (kernel true bits b)) :
    CarriesOut (onSides qubits kernel) s
      (s.transform (kernel false qubits) >>= fun rows =>
        s.columnBits qubits >>= fun columns => rows.transform (kernel true columns)) := by
  apply carriesOut_then (carriesOut_run _)
  · intro rows hrows
    have hqubits : rows.columnBits qubits = s.columnBits qubits := by
      rcases bind_eq_ok_iff.mp hrows with ⟨data, _, hdata⟩
      cases hdata
      rfl
    apply carriesOut_get
    rw [hqubits]
    exact carriesOut_check fun columns _ => carriesOut_run _
  · intro rows _
    simp [hkernel]

omit [Scalar R] in
theorem carriesOut_onSides_columns
    {kernel : Bool -> List Nat -> Buffer R -> Outcome (Buffer R)}
    (hkernel : forall onColumns bits b, NoRefusal (kernel onColumns bits b)) :
    CarriesOut (onSides qubits kernel) s
      (s.columnBits qubits >>= fun columns =>
        s.transform (kernel false qubits) >>= fun rows =>
          rows.transform (kernel true columns)) := by
  rw [bind_comm_of_noRefusal noRefusal_columnBits (noRefusal_transform.mpr (hkernel _ _ _))]
  exact carriesOut_onSides (hkernel true)

theorem carriesOut_applyUnitary (columns : Buffer R) :
    CarriesOut (applyUnitary qubits columns) s (s.applyUnitary qubits columns) :=
  carriesOut_onSides fun bits b => Kernel.noRefusal_dense bits _ b

theorem carriesOut_applyDiagonalUnitary (entries : Buffer R) :
    CarriesOut (applyDiagonalUnitary qubits entries) s (s.applyDiagonalUnitary qubits entries) :=
  carriesOut_get (carriesOut_check fun _ _ => carriesOut_run _)

theorem carriesOut_applySuperop (columns : Buffer R) :
    CarriesOut (applySuperop qubits columns) s (s.applySuperop qubits columns) :=
  carriesOut_get (carriesOut_check fun _ _ => carriesOut_run _)

theorem carriesOut_applyFlip : CarriesOut (applyFlip qubits) s (s.applyFlip qubits) :=
  carriesOut_onSides_columns fun _ bits b => Kernel.noRefusal_flip bits b

theorem carriesOut_applyFlipY : CarriesOut (applyFlipY qubits) s (s.applyFlipY qubits) :=
  carriesOut_onSides_columns fun onColumns bits b => Kernel.noRefusal_flipY bits onColumns b

theorem carriesOut_applyPhase (factor : Amplitude R) :
    CarriesOut (applyPhase qubits factor) s (s.applyPhase qubits factor) :=
  carriesOut_onSides_columns fun _ bits b => Kernel.noRefusal_phase bits _ b

theorem carriesOut_applySwap (p q : Nat) : CarriesOut (applySwap p q) s (s.applySwap p q) := by
  have hswap : s.applySwap p q = (s.transform (Kernel.exchange p q) >>= fun rows =>
      s.columnBits [p, q] >>= fun columns => rows.transform (exchangeTwo columns)) := by
    unfold Store.applySwap
    congr 1
    funext rows
    congr 1
    funext columns
    rcases columns with _ | ⟨p, _ | ⟨q, _ | ⟨r, rest⟩⟩⟩ <;> rfl
  rw [hswap]
  apply carriesOut_onSides
  intro bits b
  unfold exchangeTwo
  split
  · exact Kernel.noRefusal_exchange _ _ b
  · exact noRefusal_ok b

theorem carriesOut_applyReset : CarriesOut (applyReset qubits) s (s.applyReset qubits) :=
  carriesOut_check fun columns _ => carriesOut_applySuperop columns

end Store.InPlace

namespace Machine.InPlace

variable {m : Machine R} {qubits : List Nat} {op : Instruction R}

omit [Scalar R] in
theorem carriesOut_onStore {p : Procedure (Store R) Unit}
    {f : Store R -> Outcome (Store R)} (h : CarriesOut p m.store (f m.store)) :
    CarriesOut (onStore p) m (m.update f) :=
  carriesOut_inside rfl h

theorem carriesOut_applyDiagonal (entries : Buffer R) :
    CarriesOut (applyDiagonal qubits entries) m (m.applyDiagonal qubits entries) := by
  apply carriesOut_get
  apply carriesOut_check
  intro dim _
  split
  · exact carriesOut_error _
  · split
    · exact carriesOut_onStore (Store.InPlace.carriesOut_applyDiagonalUnitary entries)
    · apply carriesOut_check
      intro rowBits _
      apply carriesOut_check
      intro rows _
      apply carriesOut_check
      intro columnBits _
      apply carriesOut_check
      intro columns _
      apply carriesOut_check
      intro bits _
      exact carriesOut_onStore (Store.InPlace.carriesOut_run _)

theorem carriesOut_applyMatrix (u : Mat R) :
    CarriesOut (applyMatrix qubits u) m (m.applyMatrix qubits u) := by
  apply carriesOut_check
  intro dim _
  split
  · exact carriesOut_applyDiagonal u.entries
  · split
    · apply carriesOut_check
      intro size _
      exact carriesOut_error _
    · apply carriesOut_get
      apply carriesOut_check
      intro _ _
      exact carriesOut_onStore (Store.InPlace.carriesOut_applyUnitary u.columns)

theorem carriesOut_applySuperop (map : Mat R) :
    CarriesOut (applySuperop qubits map) m (m.applySuperop qubits map) := by
  apply carriesOut_check
  intro dim _
  split
  · apply carriesOut_check
    intro size _
    exact carriesOut_error _
  · apply carriesOut_get
    apply carriesOut_check
    intro _ _
    exact carriesOut_onStore (Store.InPlace.carriesOut_applySuperop map.columns)

theorem carriesOut_applyKraus (operators : List (Mat R)) :
    CarriesOut (applyKraus qubits operators) m (m.applyKraus qubits operators) := by
  unfold applyKraus Machine.applyKraus
  split
  · exact carriesOut_error _
  · apply carriesOut_check
    intro dim _
    cases operators.find? fun k => !k.hasShape dim dim with
    | some k =>
        apply carriesOut_check
        intro size _
        exact carriesOut_error _
    | none =>
        apply carriesOut_check
        intro map _
        exact carriesOut_applySuperop map

theorem carriesOut_applyReset :
    CarriesOut (applyReset qubits) m (m.applyReset qubits) := by
  apply carriesOut_get
  apply carriesOut_check
  intro _ _
  exact carriesOut_onStore Store.InPlace.carriesOut_applyReset

theorem carriesOut_applyPauli : CarriesOut (applyPauli op) m (m.applyPauli op) := by
  unfold applyPauli Machine.applyPauli
  cases op.texts with
  | nil =>
      exact carriesOut_error _
  | cons string _ =>
      apply carriesOut_get
      apply carriesOut_check
      intro bits _
      exact carriesOut_onStore (Store.InPlace.carriesOut_run _)

/-!
## Gates
-/

theorem carriesOut_applyLocal (gate : Gate) :
    CarriesOut (applyLocal op gate) m (m.applyLocal op gate) := by
  unfold applyLocal Machine.applyLocal
  dsimp only
  cases gate with
  | id =>
      exact carriesOut_pure m
  | x =>
      cases op.qubits with
      | nil =>
          exact carriesOut_error _
      | cons q _ =>
          exact carriesOut_onStore Store.InPlace.carriesOut_applyFlip
  | y =>
      cases op.qubits with
      | nil =>
          exact carriesOut_error _
      | cons q _ =>
          exact carriesOut_onStore Store.InPlace.carriesOut_applyFlipY
  | z | s | sdg | t | tdg | u1 =>
      cases op.qubits with
      | nil =>
          exact carriesOut_error _
      | cons q _ =>
          exact carriesOut_applyDiagonal _
  | h | u2 | u3 | sx | sxdg | r | rx | ry | rxx | ryy | rzx | ecr =>
      exact carriesOut_applyMatrix _
  | rz | rzz =>
      exact carriesOut_applyDiagonal _
  | cx =>
      rcases op.qubits with _ | ⟨p, _ | ⟨q, rest⟩⟩
      · exact carriesOut_error _
      · exact carriesOut_error _
      · exact carriesOut_onStore Store.InPlace.carriesOut_applyFlip
  | cy =>
      rcases op.qubits with _ | ⟨p, _ | ⟨q, rest⟩⟩
      · exact carriesOut_error _
      · exact carriesOut_error _
      · exact carriesOut_onStore Store.InPlace.carriesOut_applyFlipY
  | cz | cp =>
      rcases op.qubits with _ | ⟨p, _ | ⟨q, rest⟩⟩
      · exact carriesOut_error _
      · exact carriesOut_error _
      · exact carriesOut_onStore (Store.InPlace.carriesOut_applyPhase _)
  | swap =>
      rcases op.qubits with _ | ⟨p, _ | ⟨q, rest⟩⟩
      · exact carriesOut_error _
      · exact carriesOut_error _
      · exact carriesOut_onStore (Store.InPlace.carriesOut_applySwap p q)
  | ccx =>
      rcases op.qubits with _ | ⟨p, _ | ⟨q, _ | ⟨t, rest⟩⟩⟩
      · exact carriesOut_error _
      · exact carriesOut_error _
      · exact carriesOut_error _
      · exact carriesOut_onStore Store.InPlace.carriesOut_applyFlip
  | pauli =>
      exact carriesOut_applyPauli

theorem carriesOut_applyOneSide (onColumns : Bool) :
    CarriesOut (applyOneSide op onColumns) m (m.applyOneSide op onColumns) := by
  apply carriesOut_get
  apply carriesOut_check
  intro gate _
  apply carriesOut_check
  intro bits _
  cases gate <;>
    first
    | exact carriesOut_onStore (Store.InPlace.carriesOut_run _)
    | exact carriesOut_error _

theorem carriesOut_applyRouted (gate : Gate) :
    CarriesOut (applyRouted op gate) m (m.applyRouted op gate) := by
  apply carriesOut_get
  unfold Machine.applyRouted
  cases diagonalString? op gate with
  | some string =>
      apply carriesOut_check
      intro entries _
      exact carriesOut_applyDiagonal entries
  | none =>
      apply carriesOut_check
      intro way _
      cases way with
      | direct =>
          exact carriesOut_applyLocal gate
      | skip =>
          exact carriesOut_pure m
      | both reduced =>
          apply carriesOut_check
          intro left _
          exact carriesOut_applyLocal left
      | rows reduced =>
          exact carriesOut_applyOneSide false
      | columns reduced =>
          exact carriesOut_applyOneSide true

theorem carriesOut_applyGate : CarriesOut (applyGate op) m (m.applyGate op) := by
  apply carriesOut_get
  apply carriesOut_check
  intro gate _
  apply carriesOut_check
  intro _ _
  split
  · exact carriesOut_applyRouted gate
  · exact carriesOut_applyLocal gate

/-!
## States
-/

theorem carriesOut_setVector : CarriesOut (setVector op) m (m.setVector op) := by
  apply carriesOut_get
  apply carriesOut_check
  intro _ _
  apply carriesOut_check
  intro dim _
  split
  · exact carriesOut_error _
  · exact carriesOut_onStore (carriesOut_assign _)

theorem carriesOut_setMatrix : CarriesOut (setMatrix op) m (m.setMatrix op) := by
  apply carriesOut_get
  apply carriesOut_check
  intro _ _
  cases op.matrices with
  | nil =>
      exact carriesOut_error _
  | cons matrix _ =>
      exact carriesOut_onStore (carriesOut_assign _)

theorem carriesOut_project (outcome : Nat) (probability : R) :
    CarriesOut (project qubits outcome probability) m
      (m.project qubits outcome probability) := by
  apply carriesOut_check
  intro dim _
  apply carriesOut_check
  intro _ _
  apply carriesOut_check
  intro _ _
  exact carriesOut_applyDiagonal _

end Machine.InPlace
end MixedState
