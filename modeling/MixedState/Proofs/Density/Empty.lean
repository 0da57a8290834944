import MixedState.Proofs.Density.Kernel
import MixedState.Proofs.Density.Store
import MixedState.Proofs.Pauli

/-!
# Operators on empty buffers

A buffer whose entries were taken out is empty.  Every operator on bits of the word
succeeds on it and leaves it empty.
-/

namespace MixedState

open MixedState.Basis

variable {n : Nat} {qs : List Nat}

namespace Kernel

theorem dense_empty {R : Type} [Scalar R] (columns : Buffer R) (hlen : qs.length < 32) :
    dense qs columns #[] = .ok #[] := by
  unfold dense
  rw [checkedShift_of_lt (by unfold wordBits; omega), ok_bind,
    allocate_sixteen_of_lt (by omega), ok_bind]
  exact if_pos (Nat.zero_div _)

theorem phase_empty {R : Type} [Scalar R] (factor : Amplitude R)
    (hqs : forall q, q ∈ qs -> q < wordBits) : phase qs factor #[] = .ok #[] :=
  phase_eq_ok factor hqs

theorem controlled_empty {R : Type} [Scalar R] (f : Nat -> Amplitude R -> Amplitude R)
    (hqs : forall q, q ∈ qs -> q < wordBits) : controlled qs f #[] = .ok #[] := by
  unfold controlled
  cases htarget : qs.getLast? with
  | none =>
      rfl
  | some target =>
      have hlt := hqs target (List.mem_of_getLast? htarget)
      have hcontrols : Basis.Checked.mask qs.dropLast = .ok (bitMask qs.dropLast) := by
        unfold Basis.Checked.mask
        rw [addressable_eq_ok_iff.mpr fun q hq => hqs q (List.mem_of_mem_dropLast hq)]
        rfl
      have hbit : (decide (twoPow target < (#[] : Buffer R).size)
          || decide ((#[] : Buffer R).size ≤ bitMask qs.dropLast)) = true := by
        simp
      dsimp only
      rw [checkedShift_of_lt hlt, ok_bind, hcontrols, ok_bind]
      split
      · rfl
      · rw [orCrash_of_true hbit]
        rfl

theorem exchange_empty {R : Type} [Scalar R] {p q : Nat} (hp : p < wordBits)
    (hq : q < wordBits) : exchange p q (#[] : Buffer R) = .ok #[] := by
  unfold exchange
  rw [checkedShift_of_lt hp, ok_bind, checkedShift_of_lt hq, ok_bind]
  exact if_pos (Nat.zero_le _)

theorem pauli_empty {string : String} (factor : Amplitude ℝ) (hspells : Spells qs string)
    (hn : 2 * n < wordBits) (hqs : forall q, q ∈ qs -> q < n) :
    pauli (bothSides n qs) (string ++ string) factor #[] = .ok #[] := by
  unfold pauli
  rw [hspells.ofString_eq_ok hn hqs]
  rfl

/-!
## On rows and columns
-/

theorem unitary_empty (columns : Buffer ℝ) (hlen : qs.length < 32) :
    unitary n qs columns #[] = .ok #[] := by
  unfold unitary
  rw [dense_empty columns hlen]
  exact dense_empty _ (by rw [length_sideBits]; exact hlen)

theorem diagonalUnitary_empty (entries : Buffer ℝ) :
    diagonalUnitary n qs entries #[] = .ok #[] :=
  rfl

theorem swap_empty {p q : Nat} (hn : 2 * n < wordBits) (hp : p < n) (hq : q < n) :
    swap n p q #[] = .ok #[] := by
  unfold swap
  rw [exchange_empty (by omega) (by omega), ok_bind]
  exact exchange_empty (by omega) (by omega)

end Kernel

theorem Sided.both_empty (s : Sided) (hn : 2 * n < wordBits)
    (hqs : forall q, q ∈ qs -> q < n) : s.both n qs #[] = .ok #[] := by
  have hside : forall onColumns, s.kernel onColumns (sideBits onColumns n qs) #[] = .ok #[] := by
    intro onColumns
    have hbits : forall p, p ∈ sideBits onColumns n qs -> p < wordBits :=
      sideBits_lt_wordBits hn hqs
    cases s with
    | flip =>
        rw [kernel_flip]
        exact Kernel.controlled_empty _ hbits
    | flipY =>
        unfold kernel Kernel.flipY
        exact Kernel.controlled_empty _ hbits
    | phase factor =>
        exact Kernel.phase_empty _ hbits
  have hrows := hside false
  rw [sideBits_false] at hrows
  unfold both
  rw [hrows, ok_bind]
  exact hside true

end MixedState
