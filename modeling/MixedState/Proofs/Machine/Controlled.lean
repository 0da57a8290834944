import MixedState.Proofs.Machine.Operators

/-!
# Gates under controls

The flips and the phases are one operator each, whatever the number of controls.
Taking controls away leaves the same operator.
-/

namespace MixedState

/-- The operator that a gate is under its controls. -/
noncomputable def Gate.sided? (op : Instruction ℝ) (gate : Gate) : Option Sided :=
  match gate with
  | .x | .cx | .ccx => some .flip
  | .y | .cy => some .flipY
  | .z | .cz => some (.phase (-1))
  | .u1 | .cp => some (.phase (Machine.phaseParam op))
  | _ => none

noncomputable def Sided.sides (s : Sided) (n : Nat) (qs : List Nat)
    (rowsHold columnsHold : Bool) (b : Buffer ℝ) : Outcome (Buffer ℝ) :=
  (if rowsHold then s.kernel false qs b else .ok b).bind fun rows =>
    if columnsHold then s.kernel true (sideBits true n qs) rows else .ok rows

theorem Gate.ofName_name (gate : Gate) : Gate.ofName gate.name = .ok gate := by
  unfold Gate.ofName
  rw [Gate.ofName?_name]

namespace Machine

variable {m : Machine ℝ} {op : Instruction ℝ} {gate : Gate} {s : Sided}

theorem applyDiagonal_singleton {q : Nat} (hq : q < m.store.qubits)
    (hn : 2 * m.store.qubits < wordBits) (factor : Amplitude ℝ) :
    m.applyDiagonal [q] #[1, factor] =
      m.onData ((Sided.phase factor).both m.store.qubits [q]) := by
  have hreach : m.Reaches [q] := Or.inr (by simpa using hq)
  rw [applyDiagonal_of_reaches hreach (by omega) (by simp; omega)
    (by change 1 < wordBits; decide) rfl]
  congr 1
  funext b
  exact Kernel.diagonalUnitary_singleton (by omega) (by omega) factor b

theorem applyLocal_of_sided (hs : gate.sided? op = some s)
    (hwidth : forall n, gate.width = some n -> op.qubits.length = n)
    (hn : 2 * m.store.qubits < wordBits) (hqs : forall q, q ∈ op.qubits -> q < m.store.qubits) :
    m.applyLocal op gate = m.onData (s.both m.store.qubits op.qubits) := by
  have hword : forall q, q ∈ op.qubits -> q < wordBits := by
    intro q hq
    have hlt := hqs q hq
    omega
  rw [applyLocal_eq_enact hwidth (by omega) hword]
  cases gate with
  | x | cx | ccx | y | cy | cz | cp =>
      cases hs
      rfl
  | z | u1 =>
      cases hs
      rcases List.length_eq_one_iff.mp (hwidth 1 rfl) with ⟨q, hq⟩
      rw [hq] at hqs ⊢
      simp only [Gate.action, enact, hq]
      exact applyDiagonal_singleton (hqs q (List.mem_singleton_self q)) hn _
  | id | h | s | sdg | t | tdg | sx | sxdg | r | rx | ry | rz | u2 | u3 | swap | rxx | ryy
  | rzz | rzx | ecr | pauli =>
      cases hs

theorem applyOneSide_of_sided (hname : Gate.ofName op.name = .ok gate)
    (hs : gate.sided? op = some s) (onColumns : Bool) (hn : m.store.qubits < wordBits)
    (hqs : forall q, q ∈ op.qubits -> q < wordBits) :
    m.applyOneSide op onColumns =
      m.onData (s.kernel onColumns (sideBits onColumns m.store.qubits op.qubits)) := by
  have hshift : shiftPositions (if onColumns then m.store.qubits else 0) op.qubits =
      .ok (sideBits onColumns m.store.qubits op.qubits) := by
    refine shiftPositions_eq_ok ?_ hqs
    cases onColumns with
    | false =>
        exact Nat.lt_of_le_of_lt (Nat.zero_le _) hn
    | true =>
        exact hn
  unfold applyOneSide
  rw [hname, ok_bind, hshift, ok_bind]
  cases gate with
  | x | cx | ccx | y | cy | u1 | cp =>
      cases hs
      rfl
  | z | cz =>
      cases hs
      have hconj : (if onColumns then (-1 : Amplitude ℝ).conj else -1) = -1 := by
        cases onColumns <;> simp
      rw [Sided.kernel_phase, hconj]
      rfl
  | id | h | s | sdg | t | tdg | sx | sxdg | r | rx | ry | rz | u2 | u3 | swap | rxx | ryy
  | rzz | rzx | ecr | pauli =>
      cases hs

end Machine

/-!
## Taking controls away
-/

theorem Gate.exists_sided {gate : Gate} (hcontrolled : 0 < gate.controlCount)
    (op : Instruction ℝ) :
    exists s, gate.sided? op = some s ∧
      gate.width = some (gate.controlCount + s.targetCount) := by
  cases gate with
  | cx | cy | cz | cp | ccx =>
      exact ⟨_, rfl, rfl⟩
  | id | x | y | z | h | s | sdg | t | tdg | sx | sxdg | r | rx | ry | rz | u1 | u2 | u3 | swap
  | rxx | ryy | rzz | rzx | ecr | pauli =>
      exact absurd hcontrolled (Nat.lt_irrefl 0)

/-- Whatever controls are taken away, the operator stays, and the gate that is left takes
the qubits that are left, unless there is none. -/
theorem sided?_reducedGate {gate reduced : Gate} {removed : Nat} (op : Instruction ℝ)
    (hcontrolled : 0 < gate.controlCount) (hremoved : removed ≤ gate.controlCount)
    (h : reducedGate gate removed = some reduced) :
    reduced.sided? op = gate.sided? op ∧
      forall n, gate.width = some n -> removed < n -> reduced.width = some (n - removed) := by
  cases gate with
  | cx | cy =>
      have hcases : removed = 0 ∨ removed = 1 := by
        change removed ≤ 1 at hremoved
        omega
      rcases hcases with rfl | rfl <;> cases h <;>
        exact ⟨rfl, fun n hn _ => by cases hn; rfl⟩
  | cz | cp =>
      have hcases : removed = 0 ∨ removed = 1 ∨ removed = 2 := by
        change removed ≤ 2 at hremoved
        omega
      rcases hcases with rfl | rfl | rfl <;> cases h <;>
        exact ⟨rfl, fun n hn hlt => by cases hn; first | rfl | exact absurd hlt (Nat.lt_irrefl 2)⟩
  | ccx =>
      have hcases : removed = 0 ∨ removed = 1 ∨ removed = 2 := by
        change removed ≤ 2 at hremoved
        omega
      rcases hcases with rfl | rfl | rfl <;> cases h <;>
        exact ⟨rfl, fun n hn _ => by cases hn; rfl⟩
  | id | x | y | z | h | s | sdg | t | tdg | sx | sxdg | r | rx | ry | rz | u1 | u2 | u3 | swap
  | rxx | ryy | rzz | rzx | ecr | pauli =>
      exact absurd hcontrolled (Nat.lt_irrefl 0)

theorem exists_reducedGate {gate : Gate} {removed : Nat} (hcontrolled : 0 < gate.controlCount)
    (hremoved : removed ≤ gate.controlCount) :
    exists reduced, reducedGate gate removed = some reduced := by
  cases gate with
  | cx | cy =>
      have hcases : removed = 0 ∨ removed = 1 := by
        change removed ≤ 1 at hremoved
        omega
      rcases hcases with rfl | rfl <;> exact ⟨_, rfl⟩
  | cz | cp | ccx =>
      have hcases : removed = 0 ∨ removed = 1 ∨ removed = 2 := by
        change removed ≤ 2 at hremoved
        omega
      rcases hcases with rfl | rfl | rfl <;> exact ⟨_, rfl⟩
  | id | x | y | z | h | s | sdg | t | tdg | sx | sxdg | r | rx | ry | rz | u1 | u2 | u3 | swap
  | rxx | ryy | rzz | rzx | ecr | pauli =>
      exact absurd hcontrolled (Nat.lt_irrefl 0)

theorem Gate.action_of_controlled {op : Instruction ℝ} {gate : Gate} {s : Sided}
    (hcontrolled : 0 < gate.controlCount) (hs : gate.sided? op = some s) :
    gate.action op = .sided s := by
  cases gate with
  | cx | cy | cz | cp | ccx =>
      cases hs
      rfl
  | id | x | y | z | h | s | sdg | t | tdg | sx | sxdg | r | rx | ry | rz | u1 | u2 | u3 | swap
  | rxx | ryy | rzz | rzx | ecr | pauli =>
      exact absurd hcontrolled (Nat.lt_irrefl 0)

theorem Gate.name_of_ofName_cp {name : String} (h : Gate.ofName name = .ok .cp) :
    name = "cp" ∨ name = "cu1" := by
  unfold ofName at h
  split at h
  · next gate hlookup =>
      cases h
      rcases List.lookup_eq_some_iff.mp hlookup with ⟨before, after, htable, _⟩
      have hmem : (name, Gate.cp) ∈ table := by
        rw [htable]
        exact List.mem_append_right _ List.mem_cons_self
      simpa [table] using hmem
  · exact absurd h refuse_ne_ok

theorem Gate.isPhase_of_sided {op : Instruction ℝ} {gate : Gate} {s : Sided}
    (hs : gate.sided? op = some s) (hcontrolled : 0 < gate.controlCount) (hphase : gate ≠ .cp)
    (hcount : s.targetCount = 0) :
    exists factor, s = .phase factor ∧ factor.IsPhase := by
  cases gate with
  | cx | cy | ccx =>
      cases hs
      cases hcount
  | cz =>
      cases hs
      exact ⟨-1, rfl, Amplitude.isPhase_one.neg⟩
  | cp =>
      exact absurd rfl hphase
  | id | x | y | z | h | s | sdg | t | tdg | sx | sxdg | r | rx | ry | rz | u1 | u2 | u3 | swap
  | rxx | ryy | rzz | rzx | ecr | pauli =>
      exact absurd hcontrolled (Nat.lt_irrefl 0)

theorem Sided.both_phase_nil {n : Nat} {factor : Amplitude ℝ} (b : Buffer ℝ) :
    (phase factor).both n [] b =
      .ok (Buffer.tabulate b.size fun x => b.entry x * (factor * factor.conj)) := by
  rw [Sided.both_phase_eq_ok factor b (by simp) (by simp [sideBits])]
  congr 1
  apply Buffer.tabulate_congr
  intro x _
  have hrows : Basis.covers (Basis.bitMask []) x = true := by
    simp [Basis.covers]
  change b.entry x * (if Basis.covers (Basis.bitMask []) x then factor else 1) *
    (if Basis.covers (Basis.bitMask []) x then factor.conj else 1) = _
  rw [hrows, if_pos rfl, if_pos rfl, mul_assoc]

theorem Sided.sides_true_true (s : Sided) (n : Nat) (qs : List Nat) :
    s.sides n qs true true = s.both n qs := by
  funext b
  unfold sides both
  rfl

theorem Sided.sides_false_false (s : Sided) (n : Nat) (qs : List Nat) (b : Buffer ℝ) :
    s.sides n qs false false b = .ok b :=
  rfl

end MixedState
