import Mathlib.Data.List.Nodup
import MixedState.Proofs.Basis.Bits

/-!
# Parity of masked indices

The number of set bits of an index under a mask is counted position by position.
-/

namespace MixedState
namespace Basis

theorem countOnes_eq_countP (width x : Nat) :
    countOnes width x = (List.range width).countP x.testBit := by
  induction width generalizing x with
  | zero =>
      rfl
  | succ width ih =>
      have hshift : x.testBit ∘ Nat.succ = (x / 2).testBit := by
        funext i
        exact Nat.testBit_succ x i
      rw [List.range_succ_eq_map, List.countP_cons, List.countP_map, hshift, ← ih]
      change (x.testBit 0).toNat + countOnes width (x / 2) = _
      cases x.testBit 0 <;> simp [Nat.add_comm]

theorem countOnes_and_bitMask {qs : List Nat} {width : Nat} (x : Nat) (hnodup : qs.Nodup)
    (hqs : forall q, q ∈ qs -> q < width) :
    countOnes width (x &&& bitMask qs) = qs.countP x.testBit := by
  have hperm : ((List.range width).filter fun i => decide (i ∈ qs)).Perm qs := by
    rw [List.perm_ext_iff_of_nodup (List.nodup_range.filter _) hnodup]
    intro q
    rw [List.mem_filter, List.mem_range, decide_eq_true_iff]
    exact ⟨fun h => h.2, fun h => ⟨hqs q h, h⟩⟩
  rw [countOnes_eq_countP, ← hperm.countP_eq, List.countP_filter]
  apply List.countP_congr
  intro i _
  rw [Nat.testBit_and, testBit_bitMask]

theorem oddParity_and_bitMask {qs : List Nat} (x : Nat) (hnodup : qs.Nodup)
    (hqs : forall q, q ∈ qs -> q < 64) :
    oddParity (x &&& bitMask qs) = (qs.countP x.testBit % 2 == 1) := by
  unfold oddParity
  rw [countOnes_and_bitMask x hnodup hqs]

end Basis
end MixedState
