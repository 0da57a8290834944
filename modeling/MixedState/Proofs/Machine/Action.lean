import MixedState.Machine.Evolution
import MixedState.Proofs.Density.Store

/-!
# What named gates do

The named gates fall into a few actions: nothing, a diagonal, a matrix, an operator
under controls, an exchange, or a Pauli string.
-/

namespace MixedState

inductive Action where
  | nothing
  | sided (s : Sided)
  | diagonal (entries : Buffer ℝ)
  | matrix (u : Mat ℝ)
  | swap
  | pauli

def tPhase {R : Type} [Scalar R] : Amplitude R :=
  Amplitude.polar 1 (Scalar.pi / Scalar.ofNat 4)

def tdgPhase {R : Type} [Scalar R] : Amplitude R :=
  Amplitude.polar 1 (-(Scalar.pi / Scalar.ofNat 4))

noncomputable def Gate.action (op : Instruction ℝ) (gate : Gate) : Action :=
  let param (i : Nat) : ℝ := (op.realParam? i).getD 0
  match gate with
  | .id => .nothing
  | .x | .cx | .ccx => .sided .flip
  | .y | .cy => .sided .flipY
  | .cz => .sided (.phase (-1))
  | .cp => .sided (.phase (Machine.phaseParam op))
  | .z => .diagonal #[1, -1]
  | .s => .diagonal #[1, ⟨0, 1⟩]
  | .sdg => .diagonal #[1, ⟨0, -1⟩]
  | .t => .diagonal #[1, tPhase]
  | .tdg => .diagonal #[1, tdgPhase]
  | .u1 => .diagonal #[1, Machine.phaseParam op]
  | .rz => .diagonal (Unitary.rzDiagonal (param 0))
  | .rzz => .diagonal (Unitary.rzzDiagonal (param 0))
  | .h => .matrix Unitary.h
  | .u2 => .matrix (Unitary.u2 (param 0) (param 1))
  | .u3 => .matrix (Unitary.u3 (param 0) (param 1) (param 2))
  | .sx => .matrix Unitary.sx
  | .sxdg => .matrix Unitary.sxdg
  | .r => .matrix (Unitary.r (param 0) (param 1))
  | .rx => .matrix (Unitary.rx (param 0))
  | .ry => .matrix (Unitary.ry (param 0))
  | .rxx => .matrix (Unitary.rxx (param 0))
  | .ryy => .matrix (Unitary.ryy (param 0))
  | .rzx => .matrix (Unitary.rzx (param 0))
  | .ecr => .matrix Unitary.ecr
  | .swap => .swap
  | .pauli => .pauli

def Action.Fits (a : Action) (count : Nat) : Prop :=
  match a with
  | .sided s => s.targetCount ≤ count
  | .swap => count = 2
  | _ => True

def Action.isDiagonal : Action -> Bool
  | .nothing | .diagonal _ => true
  | _ => false

theorem Gate.action_fits (op : Instruction ℝ) (gate : Gate) {count : Nat}
    (hwidth : forall n, gate.width = some n -> count = n) : (gate.action op).Fits count := by
  cases gate with
  | x | y =>
      have hcount := hwidth 1 rfl
      change 1 ≤ count
      omega
  | cx | cy | swap =>
      have hcount := hwidth 2 rfl
      first
        | exact hcount
        | change 1 ≤ count
          omega
  | ccx =>
      have hcount := hwidth 3 rfl
      change 1 ≤ count
      omega
  | cz | cp =>
      exact Nat.zero_le count
  | id | z | h | s | sdg | t | tdg | sx | sxdg | r | rx | ry | rz | u1 | u2 | u3 | rxx | ryy
  | rzz | rzx | ecr | pauli =>
      exact True.intro

theorem Gate.isDiagonal_action (op : Instruction ℝ) {gate : Gate}
    (hcount : gate.controlCount = 0) (hdiagonal : gate.isDiagonal = true) :
    (gate.action op).isDiagonal = true := by
  cases gate with
  | id | z | s | sdg | t | tdg | rz | u1 | rzz =>
      rfl
  | cz | cp =>
      exact absurd hcount (by decide)
  | x | y | h | sx | sxdg | r | rx | ry | u2 | u3 | cx | cy | swap | rxx | ryy | rzx | ecr | ccx
  | pauli =>
      cases hdiagonal

namespace Machine

variable {m m' : Machine ℝ} {op : Instruction ℝ} {gate : Gate}

noncomputable def withData (m : Machine ℝ) (b : Buffer ℝ) : Machine ℝ :=
  { m with store := { m.store with data := b } }

noncomputable def onData (m : Machine ℝ) (kernel : Buffer ℝ -> Outcome (Buffer ℝ)) :
    Outcome (Machine ℝ) :=
  m.update fun store => store.transform kernel

@[simp] theorem place_withData (m : Machine ℝ) (b : Buffer ℝ) :
    (m.withData b).place = m.place := rfl

theorem onData_eq_ok_iff {kernel : Buffer ℝ -> Outcome (Buffer ℝ)} :
    m.onData kernel = .ok m' ↔
      exists b, kernel m.store.data = .ok b ∧ m' = m.withData b := by
  unfold onData update Store.transform
  constructor
  · intro h
    rcases bind_eq_ok_iff.mp h with ⟨store, hstore, hm⟩
    rcases bind_eq_ok_iff.mp hstore with ⟨b, hb, hs⟩
    cases hs
    cases hm
    exact ⟨b, hb, rfl⟩
  · rintro ⟨b, hb, rfl⟩
    simp only [hb, ok_bind]
    rfl

theorem onData_of_eq_ok {kernel : Buffer ℝ -> Outcome (Buffer ℝ)} {b : Buffer ℝ}
    (h : kernel m.store.data = .ok b) : m.onData kernel = .ok (m.withData b) :=
  onData_eq_ok_iff.mpr ⟨b, h, rfl⟩

theorem update_eq_onData {f : Store ℝ -> Outcome (Store ℝ)}
    {kernel : Buffer ℝ -> Outcome (Buffer ℝ)} (h : f m.store = m.store.transform kernel) :
    m.update f = m.onData kernel := by
  unfold onData update
  rw [h]

noncomputable def enact (m : Machine ℝ) (op : Instruction ℝ) : Action -> Outcome (Machine ℝ)
  | .nothing => .ok m
  | .sided s => m.onData (s.both m.store.qubits op.qubits)
  | .diagonal entries => m.applyDiagonal op.qubits entries
  | .matrix u => m.applyMatrix op.qubits u
  | .swap => m.onData (Kernel.swap m.store.qubits (op.qubits.getD 0 0) (op.qubits.getD 1 0))
  | .pauli => m.applyPauli op

theorem checkGate_eq_ok_iff {R : Type} [Scalar R] {op : Instruction R} :
    checkGate op gate = .ok () ↔
      (forall n, gate.width = some n -> op.qubits.length = n) ∧
        gate.paramCount ≤ op.params.size := by
  unfold checkGate
  cases hwidth : gate.width with
  | none =>
      by_cases hparams : op.params.size < gate.paramCount
      · simp [refuse, hparams]
      · simp [hparams, Nat.le_of_not_lt hparams]
  | some n =>
      by_cases hlen : op.qubits.length = n
      · by_cases hparams : op.params.size < gate.paramCount
        · simp [refuse, hlen, hparams]
        · simp [hlen, hparams, Nat.le_of_not_lt hparams]
      · simp [refuse, hlen]

theorem noCrash_checkGate (op : Instruction ℝ) (gate : Gate) : NoCrash (checkGate op gate) := by
  unfold checkGate
  dsimp only
  split_ifs
  · exact noCrash_refuse _
  · exact noCrash_refuse _
  · exact noCrash_ok ()

theorem applyLocal_eq_enact (hwidth : forall n, gate.width = some n -> op.qubits.length = n)
    (hn : m.store.qubits < wordBits) (hqs : forall q, q ∈ op.qubits -> q < wordBits) :
    m.applyLocal op gate = m.enact op (gate.action op) := by
  cases gate with
  | x | y | z | s | sdg | t | tdg | u1 =>
      rcases List.length_eq_one_iff.mp (hwidth 1 rfl) with ⟨q, hq⟩
      rw [hq] at hqs
      simp only [applyLocal, hq, Gate.action, enact]
      first
        | exact update_eq_onData (Store.applyFlip_eq hn hqs)
        | exact update_eq_onData (Store.applyFlipY_eq hn hqs)
        | rfl
  | cx | cy | cz | cp | swap =>
      rcases List.length_eq_two.mp (hwidth 2 rfl) with ⟨p, q, hq⟩
      rw [hq] at hqs
      simp only [applyLocal, hq, Gate.action, enact]
      first
        | exact update_eq_onData (Store.applyFlip_eq hn hqs)
        | exact update_eq_onData (Store.applyFlipY_eq hn hqs)
        | exact update_eq_onData (Store.applyPhase_eq hn hqs _)
        | exact update_eq_onData (Store.applySwap_eq hn (hqs p (by simp)) (hqs q (by simp)))
  | ccx =>
      rcases List.length_eq_three.mp (hwidth 3 rfl) with ⟨p, q, t, hq⟩
      rw [hq] at hqs
      simp only [applyLocal, hq, Gate.action, enact]
      exact update_eq_onData (Store.applyFlip_eq hn hqs)
  | id | h | sx | sxdg | r | rx | ry | rz | u2 | u3 | rxx | ryy | rzz | rzx | ecr | pauli =>
      rfl

end Machine

end MixedState
