import MixedState.Density.Store
import MixedState.Proofs.Basis.Sides

/-!
# Store operators as kernels

Each operator on the qubits of a store is one or two kernels on its buffer: on the
row bits and on the column bits in turn, or on both at once.
-/

namespace MixedState

open MixedState.Basis

namespace Kernel

noncomputable def unitary (n : Nat) (qs : List Nat) (columns b : Buffer ℝ) :
    Outcome (Buffer ℝ) := do
  dense (sideBits true n qs) columns.conj (← dense qs columns b)

noncomputable def diagonalUnitary (n : Nat) (qs : List Nat) (entries b : Buffer ℝ) :
    Outcome (Buffer ℝ) :=
  diagonal (bothSides n qs) (entries.conj.tensor entries) b

noncomputable def swap (n p q : Nat) (b : Buffer ℝ) : Outcome (Buffer ℝ) := do
  exchange (p + n) (q + n) (← exchange p q b)

end Kernel

/-- An operator that acts on rows, and conjugated on columns, under controls. -/
inductive Sided where
  | flip
  | flipY
  | phase (factor : Amplitude ℝ)

namespace Sided

def targetCount : Sided -> Nat
  | flip => 1
  | flipY => 1
  | phase _ => 0

noncomputable def kernel (s : Sided) (onColumns : Bool) (bits : List Nat) :
    Buffer ℝ -> Outcome (Buffer ℝ) :=
  match s with
  | flip => Kernel.flip bits
  | flipY => Kernel.flipY bits onColumns
  | phase factor => Kernel.phase bits (if onColumns then factor.conj else factor)

noncomputable def both (s : Sided) (n : Nat) (qs : List Nat) (b : Buffer ℝ) :
    Outcome (Buffer ℝ) := do
  s.kernel true (sideBits true n qs) (← s.kernel false qs b)

theorem kernel_flip (onColumns : Bool) (bits : List Nat) :
    flip.kernel onColumns bits = Kernel.controlled bits fun _ a => a :=
  rfl

noncomputable def yFactor (onColumns : Bool) (target x : Nat) : Amplitude ℝ :=
  let i : Amplitude ℝ := if onColumns then -Amplitude.unit else Amplitude.unit
  if x.testBit target then i else -i

theorem kernel_flipY (onColumns : Bool) (controls : List Nat) (target : Nat) :
    flipY.kernel onColumns (controls ++ [target]) =
      Kernel.controlled (controls ++ [target]) fun x a => yFactor onColumns target x * a := by
  funext b
  unfold kernel Kernel.flipY
  dsimp only
  rw [List.getLastD_concat]
  congr 1
  funext x a
  unfold yFactor
  dsimp only
  split <;> rfl

theorem kernel_phase (factor : Amplitude ℝ) (onColumns : Bool) (bits : List Nat) :
    (phase factor).kernel onColumns bits =
      Kernel.phase bits (if onColumns then factor.conj else factor) :=
  rfl

theorem both_phase_eq_ok {n : Nat} {qs : List Nat} (factor : Amplitude ℝ) (b : Buffer ℝ)
    (hrows : forall q, q ∈ qs -> q < wordBits)
    (hcolumns : forall q, q ∈ sideBits true n qs -> q < wordBits) :
    (phase factor).both n qs b = .ok (Buffer.tabulate b.size fun x =>
      b.entry x * (if covers (bitMask qs) x then factor else 1)
        * (if covers (bitMask (sideBits true n qs)) x then factor.conj else 1)) := by
  unfold both
  rw [kernel_phase, kernel_phase, if_neg Bool.false_ne_true, if_pos rfl,
    Kernel.phase_eq_ok factor hrows, ok_bind, Kernel.phase_eq_ok factor.conj hcolumns,
    Buffer.size_tabulate]
  congr 1
  apply Buffer.tabulate_congr
  intro x hx
  rw [Buffer.entry_tabulate_of_lt _ hx]
  split <;> split <;> simp

end Sided

theorem Kernel.diagonalUnitary_singleton {n q : Nat} (hq : q < wordBits)
    (hqn : q + n < wordBits) (factor : Amplitude ℝ) (b : Buffer ℝ) :
    diagonalUnitary n [q] #[1, factor] b = (Sided.phase factor).both n [q] b := by
  have hbits : forall p, p ∈ bothSides n [q] -> p < wordBits := by
    simp [bothSides, sideBits, side, hq, hqn]
  have hsize : (#[1, factor] : Buffer ℝ).size = twoPow 1 := rfl
  have hentry : forall p x, Buffer.entry #[1, factor] (gather [p] x) =
      if covers (bitMask [p]) x then factor else 1 := by
    intro p x
    rw [covers_bitMask_eq_all]
    cases hx : x.testBit p <;> simp [Buffer.entry, hx]
  unfold diagonalUnitary
  rw [Kernel.diagonal_eq_ok hbits (by change 2 ≤ wordBits; decide) (by
      rw [Buffer.size_tensor, Buffer.size_conj]
      exact Nat.le_refl 4),
    Sided.both_phase_eq_ok factor b (by simpa using hq) (by simpa [sideBits, side] using hqn)]
  congr 1
  apply Buffer.tabulate_congr
  intro x _
  unfold bothSides
  rw [Buffer.entry_tensor_gather hsize ((Buffer.size_conj _).trans hsize), Buffer.entry_conj,
    hentry, sideBits_singleton, hentry, Amplitude.conj_ite, Amplitude.conj_one]
  ring

/-!
## Operators of a store
-/

namespace Store

variable {s : Store ℝ} {qs : List Nat}

theorem transform_transform (s : Store ℝ) (f g : Buffer ℝ -> Outcome (Buffer ℝ)) :
    (s.transform f >>= fun t => t.transform g) = s.transform fun b => f b >>= g := by
  simp only [transform, bind_assoc, pure_bind]

theorem columnBits_eq_ok (hn : s.qubits < wordBits) (hqs : forall q, q ∈ qs -> q < wordBits) :
    s.columnBits qs = .ok (sideBits true s.qubits qs) :=
  shiftPositions_eq_ok hn hqs

theorem bothBits_eq_ok (hn : s.qubits < wordBits) (hqs : forall q, q ∈ qs -> q < wordBits) :
    s.bothBits qs = .ok (bothSides s.qubits qs) := by
  unfold bothBits
  rw [columnBits_eq_ok hn hqs]
  rfl

theorem applyUnitary_eq (hn : s.qubits < wordBits) (hqs : forall q, q ∈ qs -> q < wordBits)
    (columns : Buffer ℝ) :
    s.applyUnitary qs columns = s.transform (Kernel.unitary s.qubits qs columns) := by
  rw [applyUnitary, columnBits_eq_ok hn hqs]
  exact transform_transform _ _ _

theorem applyDiagonalUnitary_eq (hn : s.qubits < wordBits)
    (hqs : forall q, q ∈ qs -> q < wordBits) (entries : Buffer ℝ) :
    s.applyDiagonalUnitary qs entries =
      s.transform (Kernel.diagonalUnitary s.qubits qs entries) := by
  rw [applyDiagonalUnitary, bothBits_eq_ok hn hqs]
  rfl

theorem applySuperop_eq (hn : s.qubits < wordBits) (hqs : forall q, q ∈ qs -> q < wordBits)
    (columns : Buffer ℝ) :
    s.applySuperop qs columns = s.transform (Kernel.dense (bothSides s.qubits qs) columns) := by
  rw [applySuperop, bothBits_eq_ok hn hqs]
  rfl

theorem applyFlip_eq (hn : s.qubits < wordBits) (hqs : forall q, q ∈ qs -> q < wordBits) :
    s.applyFlip qs = s.transform (Sided.flip.both s.qubits qs) := by
  rw [applyFlip, columnBits_eq_ok hn hqs]
  exact transform_transform _ _ _

theorem applyFlipY_eq (hn : s.qubits < wordBits) (hqs : forall q, q ∈ qs -> q < wordBits) :
    s.applyFlipY qs = s.transform (Sided.flipY.both s.qubits qs) := by
  rw [applyFlipY, columnBits_eq_ok hn hqs]
  exact transform_transform _ _ _

theorem applyPhase_eq (hn : s.qubits < wordBits) (hqs : forall q, q ∈ qs -> q < wordBits)
    (factor : Amplitude ℝ) :
    s.applyPhase qs factor = s.transform ((Sided.phase factor).both s.qubits qs) := by
  rw [applyPhase, columnBits_eq_ok hn hqs]
  exact transform_transform _ _ _

theorem applySwap_eq (hn : s.qubits < wordBits) {p q : Nat} (hp : p < wordBits)
    (hq : q < wordBits) :
    s.applySwap p q = s.transform (Kernel.swap s.qubits p q) := by
  have hqs : forall i, i ∈ [p, q] -> i < wordBits := by
    simp [hp, hq]
  rw [applySwap, columnBits_eq_ok hn hqs]
  exact transform_transform _ _ _

end Store

end MixedState
