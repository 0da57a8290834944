import MixedState.Proofs.InPlace.Dense
import MixedState.Proofs.Machine.Channels

/-!
# Gates that write in place

A gate goes over the buffer of a register in one loop, or in one for the rows and one for
the columns.  On distinct qubits these loops leave what the gate leaves.
-/

namespace MixedState

open MixedState.Basis

namespace Kernel.InPlace

noncomputable def unitary (n : Nat) (qs : List Nat) (columns b : Buffer ℝ) :
    Outcome (Buffer ℝ) := do
  dense (sideBits true n qs) columns.conj (← dense qs columns b)

noncomputable def diagonalUnitary (n : Nat) (qs : List Nat) (entries b : Buffer ℝ) :
    Outcome (Buffer ℝ) :=
  diagonal (bothSides n qs) (entries.conj.tensor entries) b

noncomputable def swap (n p q : Nat) (b : Buffer ℝ) : Outcome (Buffer ℝ) := do
  exchange (p + n) (q + n) (← exchange p q b)

end Kernel.InPlace

open Kernel.InPlace (Sweeps)

namespace Sided

noncomputable def pass (s : Sided) (onColumns : Bool) (bits : List Nat) :
    Buffer ℝ -> Outcome (Buffer ℝ) :=
  match s with
  | flip => Kernel.InPlace.flip bits
  | flipY => Kernel.InPlace.flipY bits onColumns
  | phase factor => Kernel.InPlace.phase bits (if onColumns then factor.conj else factor)

noncomputable def passes (s : Sided) (n : Nat) (qs : List Nat) (b : Buffer ℝ) :
    Outcome (Buffer ℝ) := do
  s.pass true (sideBits true n qs) (← s.pass false qs b)

variable {n : Nat} {qs : List Nat}

theorem sweeps_pass {s : Sided} {k : Nat} {bits : List Nat} (onColumns : Bool)
    (hk : k < wordBits) (hnodup : bits.Nodup) (hbits : forall p, p ∈ bits -> p < k)
    (hfits : s.targetCount ≤ bits.length) :
    Sweeps (twoPow k) (s.pass onColumns bits) (s.kernel onColumns bits) := by
  have hcontrolled : 1 ≤ bits.length -> forall f : Nat -> Amplitude ℝ -> Amplitude ℝ,
      Sweeps (twoPow k) (Kernel.InPlace.controlled bits f) (Kernel.controlled bits f) := by
    intro hlen f
    rcases List.eq_nil_or_concat bits with rfl | ⟨controls, t, rfl⟩
    · cases hlen
    · rw [List.concat_eq_append] at hnodup hbits ⊢
      have hnot : t ∉ controls :=
        fun hmem => (List.nodup_append.mp hnodup).2.2 t hmem t (List.mem_singleton_self t) rfl
      apply Kernel.InPlace.sweeps_controlled f hnot _ (hbits t (by simp)) (Nat.le_of_lt hk)
      intro q hq
      have hlt := hbits q (List.mem_append_left _ hq)
      omega
  cases s with
  | flip =>
      exact hcontrolled hfits _
  | flipY =>
      exact hcontrolled hfits _
  | phase factor =>
      apply Kernel.InPlace.sweeps_phase
      intro q hq
      have hlt := hbits q hq
      omega

theorem sweeps_passes {s : Sided} (hn : 2 * n < wordBits) (hnodup : qs.Nodup)
    (hqs : forall q, q ∈ qs -> q < n) (hfits : s.targetCount ≤ qs.length) :
    Sweeps (twoPow (2 * n)) (s.passes n qs) (s.both n qs) := by
  have hrows : forall q, q ∈ qs -> q < 2 * n := by
    intro q hq
    have hlt := hqs q hq
    omega
  apply (s.sweeps_pass false hn hnodup hrows hfits).andThen
  apply s.sweeps_pass true hn (nodup_sideBits hnodup) (lt_of_mem_sideBits hqs)
  rw [length_sideBits]
  exact hfits

end Sided

namespace Kernel.InPlace

variable {n : Nat} {qs : List Nat}

theorem sweeps_unitary {columns : Buffer ℝ} (hn : 2 * n < wordBits) (hnodup : qs.Nodup)
    (hqs : forall q, q ∈ qs -> q < n)
    (hcolumns : twoPow qs.length * twoPow qs.length ≤ columns.size) :
    Sweeps (twoPow (2 * n)) (unitary n qs columns) (Kernel.unitary n qs columns) := by
  have hlen : qs.length ≤ n := length_le_of_nodup hnodup hqs
  have hword : wordBits = 64 := rfl
  have hrows : forall q, q ∈ qs -> q < 2 * n := by
    intro q hq
    have hlt := hqs q hq
    omega
  apply (sweeps_dense hnodup hrows (by omega) (by omega) hcolumns).andThen
  apply sweeps_dense (nodup_sideBits hnodup) (lt_of_mem_sideBits hqs) (by omega)
  · rw [length_sideBits]
    omega
  · rw [length_sideBits, Buffer.size_conj]
    exact hcolumns

theorem sweeps_diagonalUnitary {entries : Buffer ℝ} (hn : 2 * n < wordBits) (hnodup : qs.Nodup)
    (hqs : forall q, q ∈ qs -> q < n) (hsize : entries.size = twoPow qs.length) :
    Sweeps (twoPow (2 * n)) (diagonalUnitary n qs entries)
      (Kernel.diagonalUnitary n qs entries) := by
  have hlen : qs.length ≤ n := length_le_of_nodup hnodup hqs
  apply sweeps_diagonal (bothSides_lt_wordBits hn hqs)
  · rw [length_bothSides]
    omega
  · rw [length_bothSides, twoPow_two_mul, Buffer.size_tensor, Buffer.size_conj, hsize]

theorem sweeps_swap {p q : Nat} (hn : 2 * n < wordBits) (hp : p < n) (hq : q < n) :
    Sweeps (twoPow (2 * n)) (swap n p q) (Kernel.swap n p q) :=
  (sweeps_exchange (by omega) (by omega) (by omega)).andThen
    (sweeps_exchange (by omega) (by omega) (by omega))

theorem pauli_bothSides_eq {string : String} {factor : Amplitude ℝ} {b : Buffer ℝ}
    (hn : 2 * n < wordBits) (hqs : forall q, q ∈ qs -> q < n) (hb : b.size = twoPow (2 * n)) :
    pauli (bothSides n qs) (string ++ string) factor b =
      Kernel.pauli (bothSides n qs) (string ++ string) factor b := by
  apply pauli_eq hb
  intro masks hmasks
  have hspells : Spells qs string := (spells_of_ofString_eq_ok hmasks).of_bothSides
  rw [hspells.ofString_eq_ok hn hqs] at hmasks
  cases hmasks
  exact bitMask_lt (lt_of_mem_bothSides fun q hq => hqs q (mem_of_mem_flipped hq))

end Kernel.InPlace

/-!
## The action of a gate
-/

/-- The loops of an action on the qubits of an instruction. -/
noncomputable def Action.passes (op : Instruction ℝ) (n : Nat) :
    Action -> Buffer ℝ -> Outcome (Buffer ℝ)
  | .nothing, b => .ok b
  | .sided s, b => s.passes n op.qubits b
  | .diagonal entries, b => Kernel.InPlace.diagonalUnitary n op.qubits entries b
  | .matrix u, b => Kernel.InPlace.unitary n op.qubits u.columns b
  | .swap, b => Kernel.InPlace.swap n (op.qubits.getD 0 0) (op.qubits.getD 1 0) b
  | .pauli, b =>
      match op.texts with
      | [] => refuse (.missing op.name .pauliString)
      | string :: _ =>
          Kernel.InPlace.pauli (bothSides n op.qubits) (string ++ string) (ySign string) b

def Action.Sized (count : Nat) : Action -> Prop
  | .diagonal entries => entries.size = twoPow count
  | .matrix u => u.rows ≠ 1 ∧ u.rows = twoPow count ∧ u.cols = twoPow count
  | _ => True

theorem Gate.sized_action (op : Instruction ℝ) (gate : Gate) {count : Nat}
    (hwidth : forall n, gate.width = some n -> count = n) : (gate.action op).Sized count := by
  have htwo : (2 : Nat) ≠ 1 ∧ 2 = twoPow 1 ∧ 2 = twoPow 1 := by decide
  have hfour : (4 : Nat) ≠ 1 ∧ 4 = twoPow 2 ∧ 4 = twoPow 2 := by decide
  cases gate with
  | id | x | y | cx | cy | cz | cp | swap | ccx | pauli =>
      exact True.intro
  | z | s | sdg | t | tdg | u1 | rz =>
      rw [hwidth 1 rfl]
      rfl
  | rzz =>
      rw [hwidth 2 rfl]
      rfl
  | h | u2 | u3 | sx | sxdg | r | rx | ry =>
      rw [hwidth 1 rfl]
      exact htwo
  | rxx | ryy | rzx | ecr =>
      rw [hwidth 2 rfl]
      exact hfour

namespace Machine

variable {n : Nat} {m : Machine ℝ} {op : Instruction ℝ} {gate : Gate}

theorem onData_congr {loop kernel : Buffer ℝ -> Outcome (Buffer ℝ)}
    (h : loop m.store.data = kernel m.store.data) : m.onData kernel = m.onData loop := by
  unfold onData update Store.transform
  dsimp only
  rw [h]

namespace Lists

theorem applyPauli_eq_onData {string : String} {rest : List String} (op : Instruction ℝ)
    (h : m.Lists n op.qubits) (htexts : op.texts = string :: rest) :
    m.applyPauli op = m.onData
      (Kernel.pauli (bothSides n op.qubits) (string ++ string) (ySign string)) := by
  unfold applyPauli
  rw [htexts]
  dsimp only
  rw [Store.bothBits_eq_ok h.store_lt h.lt_wordBits, ok_bind, h.qubits]
  rfl

theorem enact_eq_passes {a : Action} (h : m.Lists n op.qubits) (hnodup : op.qubits.Nodup)
    (hfits : a.Fits op.qubits.length) (hsized : a.Sized op.qubits.length) :
    m.enact op a = m.onData (a.passes op n) := by
  have hlen := length_le_of_nodup hnodup h.inside
  have hsmall := h.small
  cases a with
  | nothing =>
      rfl
  | sided s =>
      unfold enact
      rw [h.qubits]
      exact onData_congr ((s.sweeps_passes h.small hnodup h.inside hfits).eq h.full)
  | diagonal entries =>
      change m.applyDiagonal op.qubits entries = _
      rw [applyDiagonal_of_reaches h.reaches h.store_lt h.lt_wordBits (by omega) hsized, h.qubits]
      exact onData_congr
        ((Kernel.InPlace.sweeps_diagonalUnitary h.small hnodup h.inside hsized).eq h.full)
  | matrix u =>
      rcases hsized with ⟨hmany, hrows, hcols⟩
      change m.applyMatrix op.qubits u = _
      rw [applyMatrix_of_reaches hmany h.reaches h.store_lt h.lt_wordBits (by omega) hrows hcols,
        h.qubits]
      exact onData_congr ((Kernel.InPlace.sweeps_unitary h.small hnodup h.inside
        (by rw [Mat.size_columns, hrows, hcols])).eq h.full)
  | swap =>
      rcases List.length_eq_two.mp hfits with ⟨p, q, hpair⟩
      have hinside := h.inside
      rw [hpair] at hinside
      unfold enact
      rw [h.qubits]
      apply onData_congr
      unfold Action.passes
      rw [hpair]
      exact (Kernel.InPlace.sweeps_swap h.small (hinside p (by simp)) (hinside q (by simp))).eq
        h.full
  | pauli =>
      change m.applyPauli op = _
      cases htexts : op.texts with
      | nil =>
          unfold applyPauli onData update Store.transform Action.passes
          rw [htexts]
          rfl
      | cons string rest =>
          rw [h.applyPauli_eq_onData op htexts]
          apply onData_congr
          unfold Action.passes
          rw [htexts]
          exact Kernel.InPlace.pauli_bothSides_eq h.small h.inside h.full

theorem applyGate_eq_enact (op : Instruction ℝ) (h : m.Lists n op.qubits)
    (hname : Gate.ofName op.name = .ok gate) (hcheck : checkGate op gate = .ok ()) :
    m.applyGate op = m.enact op (gate.action op) := by
  unfold applyGate
  rw [hname, ok_bind, hcheck, ok_bind, h.whole, if_neg Bool.false_ne_true,
    applyLocal_eq_enact (checkGate_eq_ok_iff.mp hcheck).1 h.store_lt h.lt_wordBits]

theorem applyGate_eq_passes (h : m.Lists n op.qubits) (hnodup : op.qubits.Nodup)
    (hname : Gate.ofName op.name = .ok gate) (hcheck : checkGate op gate = .ok ()) :
    m.applyGate op = m.onData ((gate.action op).passes op n) := by
  have hwidth := (checkGate_eq_ok_iff.mp hcheck).1
  rw [h.applyGate_eq_enact op hname hcheck]
  exact h.enact_eq_passes hnodup (gate.action_fits op hwidth) (gate.sized_action op hwidth)

end Lists

end Machine

end MixedState
