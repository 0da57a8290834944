import MixedState.Density.Store
import MixedState.Proofs.Basis.Sides
import MixedState.Proofs.Density.Kernel

/-!
# Operators and sizes

An operator fails or not by its positions and by the size of the buffer, whatever the
entries are, and it keeps the size.  On two buffers of one size it therefore ends alike.
On the bits of a buffer, flips and phases do not fail at all.
-/

namespace MixedState

variable {R : Type} [Scalar R]

def SameSize (n : Nat) (a b : Buffer R) : Prop :=
  a.size = n ∧ b.size = n

omit [Scalar R] in
theorem sameSize_tabulate (n : Nat) (f g : Nat -> Amplitude R) :
    SameSize n (Buffer.tabulate n f) (Buffer.tabulate n g) :=
  ⟨Buffer.size_tabulate n f, Buffer.size_tabulate n g⟩

namespace Kernel

variable {n : Nat} {a b : Buffer R}

theorem dense_alike (positions : List Nat) (columns : Buffer R) (h : SameSize n a b) :
    Alike (SameSize n) (dense positions columns a) (dense positions columns b) := by
  unfold dense
  rw [h.1, h.2]
  apply Alike.after
  intro dim _
  apply Alike.after
  intro _ _
  dsimp only
  split
  · exact .ok h
  · apply Alike.after
    intro _ _
    apply Alike.after
    intro _ _
    exact .ok (sameSize_tabulate n _ _)

theorem diagonal_alike {k : Nat} (positions : List Nat) {entries entries' : Buffer R}
    (hentries : SameSize k entries entries') (h : SameSize n a b) :
    Alike (SameSize n) (diagonal positions entries a) (diagonal positions entries' b) := by
  unfold diagonal
  rw [h.1, h.2, hentries.1, hentries.2]
  split
  · exact .ok h
  · apply Alike.after
    intro _ _
    apply Alike.after
    intro _ _
    apply Alike.after
    intro _ _
    exact .ok (sameSize_tabulate n _ _)

theorem phase_alike (positions : List Nat) (factor : Amplitude R) (h : SameSize n a b) :
    Alike (SameSize n) (phase positions factor a) (phase positions factor b) := by
  unfold phase
  rw [h.1, h.2]
  apply Alike.after
  intro mask _
  exact .ok (sameSize_tabulate n _ _)

theorem controlled_alike (positions : List Nat) (f : Nat -> Amplitude R -> Amplitude R)
    (h : SameSize n a b) :
    Alike (SameSize n) (controlled positions f a) (controlled positions f b) := by
  unfold controlled
  rw [h.1, h.2]
  split
  · exact .ok h
  · apply Alike.after
    intro bit _
    apply Alike.after
    intro mask _
    split
    · exact .ok h
    · apply Alike.after
      intro _ _
      exact .ok (sameSize_tabulate n _ _)

theorem flip_alike (positions : List Nat) (h : SameSize n a b) :
    Alike (SameSize n) (flip positions a) (flip positions b) :=
  controlled_alike positions _ h

theorem flipY_alike (positions : List Nat) (conjugate : Bool) (h : SameSize n a b) :
    Alike (SameSize n) (flipY positions conjugate a) (flipY positions conjugate b) := by
  unfold flipY
  exact controlled_alike positions _ h

theorem exchange_alike (p q : Nat) (h : SameSize n a b) :
    Alike (SameSize n) (exchange p q a) (exchange p q b) := by
  unfold exchange
  rw [h.1, h.2]
  apply Alike.after
  intro low _
  apply Alike.after
  intro high _
  split
  · exact .ok h
  · apply Alike.after
    intro _ _
    exact .ok (sameSize_tabulate n _ _)

theorem pauli_alike (positions : List Nat) (string : String) (factor : Amplitude R)
    (h : SameSize n a b) :
    Alike (SameSize n) (pauli positions string factor a) (pauli positions string factor b) := by
  unfold pauli
  rw [h.1, h.2]
  apply Alike.after
  intro masks _
  apply Alike.after
  intro _ _
  exact .ok (sameSize_tabulate n _ _)

/-!
## Kernels that do not fail
-/

theorem gives_phase {positions : List Nat} (factor : Amplitude R) (hb : b.size = n)
    (hpositions : forall p, p ∈ positions -> p < wordBits) :
    Gives (fun c => c.size = n) (phase positions factor b) := by
  rw [phase_eq_ok factor hpositions, hb]
  exact .ok (Buffer.size_tabulate n _)

theorem gives_diagonal {positions : List Nat} {entries : Buffer R} (hb : b.size = n)
    (hpositions : forall p, p ∈ positions -> p < wordBits) (hlen : positions.length ≤ wordBits)
    (hentries : twoPow positions.length ≤ entries.size) :
    Gives (fun c => c.size = n) (diagonal positions entries b) := by
  rw [diagonal_eq_ok hpositions hlen hentries, hb]
  exact .ok (Buffer.size_tabulate n _)

theorem gives_controlled {k : Nat} {positions : List Nat}
    (f : Nat -> Amplitude R -> Amplitude R) (hb : b.size = twoPow k) (hk : k ≤ wordBits)
    (hpositions : forall p, p ∈ positions -> p < k) :
    Gives (fun c => c.size = twoPow k) (controlled positions f b) := by
  unfold controlled
  cases htarget : positions.getLast? with
  | none =>
      exact .ok hb
  | some target =>
      have hlt := hpositions target (List.mem_of_getLast? htarget)
      have hmask : Basis.Checked.mask positions.dropLast =
          .ok (Basis.bitMask positions.dropLast) := by
        unfold Basis.Checked.mask
        rw [Basis.addressable_eq_ok_iff.mpr fun p hp =>
          Nat.lt_of_lt_of_le (hpositions p (List.mem_of_mem_dropLast hp)) hk]
        rfl
      have hbit : (decide (twoPow target < b.size)
          || decide (b.size ≤ Basis.bitMask positions.dropLast)) = true := by
        rw [hb, decide_eq_true (twoPow_lt_twoPow hlt), Bool.true_or]
      dsimp only
      rw [checkedShift_of_lt (Nat.lt_of_lt_of_le hlt hk), ok_bind, hmask, ok_bind]
      split
      · exact .ok hb
      · rw [orCrash_of_true hbit, ok_bind, hb]
        exact .ok (Buffer.size_tabulate _ _)

theorem gives_flip {k : Nat} {positions : List Nat} (hb : b.size = twoPow k)
    (hk : k ≤ wordBits) (hpositions : forall p, p ∈ positions -> p < k) :
    Gives (fun c => c.size = twoPow k) (flip positions b) :=
  gives_controlled _ hb hk hpositions

theorem gives_flipY {k : Nat} {positions : List Nat} (conjugate : Bool)
    (hb : b.size = twoPow k) (hk : k ≤ wordBits) (hpositions : forall p, p ∈ positions -> p < k) :
    Gives (fun c => c.size = twoPow k) (flipY positions conjugate b) := by
  unfold flipY
  exact gives_controlled _ hb hk hpositions

end Kernel

/-!
## Stores
-/

structure Store.HasShape (n size : Nat) (s : Store R) : Prop where
  qubits : s.qubits = n
  size_data : s.data.size = size

def Store.SameShape (n size : Nat) (s t : Store R) : Prop :=
  s.HasShape n size ∧ t.HasShape n size

namespace Store

variable {n size : Nat} {s t : Store R} {qubits : List Nat}

omit [Scalar R] in
theorem SameShape.columnBits_eq (h : SameShape n size s t) (qubits : List Nat) :
    s.columnBits qubits = t.columnBits qubits := by
  unfold columnBits
  rw [h.1.qubits, h.2.qubits]

omit [Scalar R] in
theorem SameShape.bothBits_eq (h : SameShape n size s t) (qubits : List Nat) :
    s.bothBits qubits = t.bothBits qubits := by
  unfold bothBits
  rw [h.columnBits_eq]

omit [Scalar R] in
theorem transform_alike {f g : Buffer R -> Outcome (Buffer R)} (h : SameShape n size s t)
    (hkernel : forall a b, SameSize size a b -> Alike (SameSize size) (f a) (g b)) :
    Alike (SameShape n size) (s.transform f) (t.transform g) := by
  apply (hkernel _ _ ⟨h.1.size_data, h.2.size_data⟩).bind
  intro a b hab
  exact .ok ⟨⟨h.1.qubits, hab.1⟩, ⟨h.2.qubits, hab.2⟩⟩

theorem applyUnitary_alike (h : SameShape n size s t) (columns : Buffer R) :
    Alike (SameShape n size) (s.applyUnitary qubits columns) (t.applyUnitary qubits columns) := by
  unfold applyUnitary
  rw [h.columnBits_eq]
  apply (transform_alike h fun _ _ hab => Kernel.dense_alike _ _ hab).bind
  intro rows rows' hrows
  apply Alike.after
  intro bits _
  exact transform_alike hrows fun _ _ hab => Kernel.dense_alike _ _ hab

theorem applyDiagonalUnitary_alike (h : SameShape n size s t) (entries : Buffer R) :
    Alike (SameShape n size) (s.applyDiagonalUnitary qubits entries)
      (t.applyDiagonalUnitary qubits entries) := by
  unfold applyDiagonalUnitary
  rw [h.bothBits_eq]
  apply Alike.after
  intro bits _
  exact transform_alike h fun _ _ hab => Kernel.diagonal_alike _ ⟨rfl, rfl⟩ hab

theorem applySuperop_alike (h : SameShape n size s t) (columns : Buffer R) :
    Alike (SameShape n size) (s.applySuperop qubits columns) (t.applySuperop qubits columns) := by
  unfold applySuperop
  rw [h.bothBits_eq]
  apply Alike.after
  intro bits _
  exact transform_alike h fun _ _ hab => Kernel.dense_alike _ _ hab

theorem applyReset_alike (h : SameShape n size s t) :
    Alike (SameShape n size) (s.applyReset qubits) (t.applyReset qubits) := by
  apply Alike.after
  intro columns _
  exact applySuperop_alike h columns

theorem applyFlip_alike (h : SameShape n size s t) :
    Alike (SameShape n size) (s.applyFlip qubits) (t.applyFlip qubits) := by
  unfold applyFlip
  rw [h.columnBits_eq]
  apply Alike.after
  intro columns _
  apply (transform_alike h fun _ _ hab => Kernel.flip_alike _ hab).bind
  intro rows rows' hrows
  exact transform_alike hrows fun _ _ hab => Kernel.flip_alike _ hab

theorem applyFlipY_alike (h : SameShape n size s t) :
    Alike (SameShape n size) (s.applyFlipY qubits) (t.applyFlipY qubits) := by
  unfold applyFlipY
  rw [h.columnBits_eq]
  apply Alike.after
  intro columns _
  apply (transform_alike h fun _ _ hab => Kernel.flipY_alike _ _ hab).bind
  intro rows rows' hrows
  exact transform_alike hrows fun _ _ hab => Kernel.flipY_alike _ _ hab

theorem applyPhase_alike (h : SameShape n size s t) (factor : Amplitude R) :
    Alike (SameShape n size) (s.applyPhase qubits factor) (t.applyPhase qubits factor) := by
  unfold applyPhase
  rw [h.columnBits_eq]
  apply Alike.after
  intro columns _
  apply (transform_alike h fun _ _ hab => Kernel.phase_alike _ _ hab).bind
  intro rows rows' hrows
  exact transform_alike hrows fun _ _ hab => Kernel.phase_alike _ _ hab

theorem applySwap_alike (h : SameShape n size s t) (p q : Nat) :
    Alike (SameShape n size) (s.applySwap p q) (t.applySwap p q) := by
  unfold applySwap
  rw [h.columnBits_eq]
  apply (transform_alike h fun _ _ hab => Kernel.exchange_alike _ _ hab).bind
  intro rows rows' hrows
  apply Alike.after
  intro columns _
  split
  · exact transform_alike hrows fun _ _ hab => Kernel.exchange_alike _ _ hab
  · exact .ok hrows

/-!
## Operators that do not fail
-/

omit [Scalar R] in
theorem HasShape.gives_transform {f : Buffer R -> Outcome (Buffer R)} (h : s.HasShape n size)
    (hkernel : Gives (fun b => b.size = size) (f s.data)) :
    Gives (HasShape n size) (s.transform f) := by
  apply hkernel.bind
  intro b hb
  exact .ok ⟨h.qubits, hb⟩

omit [Scalar R] in
theorem HasShape.columnBits_eq_ok (h : s.HasShape n size) (hn : 2 * n < wordBits)
    (hqubits : forall q, q ∈ qubits -> q < n) :
    s.columnBits qubits = .ok (sideBits true n qubits) := by
  unfold columnBits
  rw [h.qubits]
  exact shiftPositions_eq_ok (by omega) (lt_wordBits_of_lt hn hqubits)

theorem HasShape.gives_applyFlip (h : s.HasShape n (twoPow (2 * n))) (hn : 2 * n < wordBits)
    (hqubits : forall q, q ∈ qubits -> q < n) :
    Gives (HasShape n (twoPow (2 * n))) (s.applyFlip qubits) := by
  unfold applyFlip
  rw [h.columnBits_eq_ok hn hqubits, ok_bind]
  apply Gives.bind (h.gives_transform (Kernel.gives_flip h.size_data (Nat.le_of_lt hn) _))
  · intro rows hrows
    exact hrows.gives_transform (Kernel.gives_flip hrows.size_data (Nat.le_of_lt hn)
      (lt_of_mem_sideBits hqubits))
  · intro q hq
    have hlt := hqubits q hq
    omega

theorem HasShape.gives_applyFlipY (h : s.HasShape n (twoPow (2 * n))) (hn : 2 * n < wordBits)
    (hqubits : forall q, q ∈ qubits -> q < n) :
    Gives (HasShape n (twoPow (2 * n))) (s.applyFlipY qubits) := by
  unfold applyFlipY
  rw [h.columnBits_eq_ok hn hqubits, ok_bind]
  apply Gives.bind (h.gives_transform (Kernel.gives_flipY false h.size_data (Nat.le_of_lt hn) _))
  · intro rows hrows
    exact hrows.gives_transform (Kernel.gives_flipY true hrows.size_data (Nat.le_of_lt hn)
      (lt_of_mem_sideBits hqubits))
  · intro q hq
    have hlt := hqubits q hq
    omega

theorem HasShape.gives_applyDiagonalUnitary {entries : Buffer R} (h : s.HasShape n size)
    (hn : 2 * n < wordBits) (hqubits : forall q, q ∈ qubits -> q < n)
    (hlen : 2 * qubits.length ≤ wordBits) (hentries : entries.size = twoPow qubits.length) :
    Gives (HasShape n size) (s.applyDiagonalUnitary qubits entries) := by
  unfold applyDiagonalUnitary bothBits
  rw [h.columnBits_eq_ok hn hqubits]
  change Gives _ (s.transform (Kernel.diagonal (bothSides n qubits) _))
  apply h.gives_transform
  apply Kernel.gives_diagonal h.size_data (bothSides_lt_wordBits hn hqubits)
  · rw [length_bothSides]
    exact hlen
  · rw [length_bothSides, twoPow_two_mul, Buffer.size_tensor, Buffer.size_conj, hentries]

end Store

end MixedState
