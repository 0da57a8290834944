import MixedState.Proofs.Density.Operators
import MixedState.Proofs.Density.Reduced
import MixedState.Proofs.Pauli.Matrix

/-!
# Renamed qubits

A permutation of the qubits moves the bits of row and column indices.  An operator on
renamed qubits of a renamed matrix gives the renamed result, and the reduced matrix of
renamed qubits is that of the qubits themselves.
-/

namespace MixedState

open MixedState.Basis

/-- A permutation of the qubits below `n`. -/
structure Renaming (n : Nat) where
  move : Nat -> Nat
  lt : forall q, q < n -> move q < n
  injective : forall p q, p < n -> q < n -> move p = move q -> p = q

namespace Renaming

variable {n : Nat} (π : Renaming n)

def index (x : Nat) : Nat :=
  scatter ((List.range n).map π.move) x

/-!
## Indices
-/

theorem nodup_positions : ((List.range n).map π.move).Nodup := by
  apply List.Nodup.map_on _ List.nodup_range
  intro p hp q hq h
  exact π.injective p q (List.mem_range.mp hp) (List.mem_range.mp hq) h

theorem frame : Frame n π.move π.index where
  bit p x hp _ := by
    have hget : ((List.range n).map π.move)[p]? = some (π.move p) := by
      rw [List.getElem?_map, List.getElem?_range hp]
      rfl
    exact testBit_scatter x π.nodup_positions hget
  fixed s x y hs _ _ := by
    have hmem : s ∉ (List.range n).map π.move := by
      intro h
      rcases List.mem_map.mp h with ⟨q, hq, hmove⟩
      exact hs q (List.mem_range.mp hq) hmove
    unfold index
    rw [testBit_scatter_of_not_mem x hmem, testBit_scatter_of_not_mem y hmem]
  injective := π.injective

theorem index_lt (x : Nat) : π.index x < twoPow n := by
  rw [lt_twoPow_iff]
  intro s hs
  apply testBit_scatter_of_not_mem
  intro h
  rcases List.mem_map.mp h with ⟨q, hq, rfl⟩
  exact Nat.not_lt_of_le hs (π.lt q (List.mem_range.mp hq))

theorem index_injective {x y : Nat} (hx : x < twoPow n) (hy : y < twoPow n)
    (h : π.index x = π.index y) : x = y := by
  apply Nat.eq_of_testBit_eq
  intro q
  by_cases hq : q < n
  · rw [← π.frame.bit q x hq hx, ← π.frame.bit q y hq hy, h]
  · rw [(lt_twoPow_iff x n).mp hx q (Nat.le_of_not_lt hq),
      (lt_twoPow_iff y n).mp hy q (Nat.le_of_not_lt hq)]

theorem index_eq_zero_iff {x : Nat} (hx : x < twoPow n) : π.index x = 0 ↔ x = 0 := by
  have hzero : π.index 0 = 0 := scatter_zero _
  constructor
  · intro h
    exact π.index_injective hx (twoPow_pos n) (h.trans hzero.symm)
  · rintro rfl
    exact hzero

theorem sum_index {M : Type} [AddCommMonoid M] (f : Nat -> M) :
    ∑ x ∈ Finset.range (twoPow n), f (π.index x) = ∑ x ∈ Finset.range (twoPow n), f x := by
  have hinjective : Set.InjOn π.index (Finset.range (twoPow n)) := fun x hx y hy h =>
    π.index_injective (Finset.mem_range.mp hx) (Finset.mem_range.mp hy) h
  have himage : (Finset.range (twoPow n)).image π.index = Finset.range (twoPow n) := by
    apply Finset.eq_of_subset_of_card_le
    · intro y hy
      rcases Finset.mem_image.mp hy with ⟨x, _, rfl⟩
      exact Finset.mem_range.mpr (π.index_lt x)
    · rw [Finset.card_image_of_injOn hinjective]
  rw [← Finset.sum_image hinjective, himage]

theorem lt_of_mem_map {qs : List Nat} (hqs : forall q, q ∈ qs -> q < n) :
    forall p, p ∈ qs.map π.move -> p < n := by
  intro p hp
  rcases List.mem_map.mp hp with ⟨q, hq, rfl⟩
  exact π.lt q (hqs q hq)

def reversed (n : Nat) : Renaming n where
  move q := n - 1 - q
  lt q hq := by omega
  injective p q hp hq h := by omega

end Renaming

/-!
## Matrices
-/

def IsRenamed {n : Nat} (π : Renaming n) (ρ σ : Entries) : Prop :=
  forall r c, r < twoPow n -> c < twoPow n -> σ (π.index r) (π.index c) = ρ r c

variable {n : Nat} {π : Renaming n} {ρ σ : Entries} {qs : List Nat}

theorem isRenamed_act {u : Entries} {f g : Nat -> Amplitude ℝ} (hnodup : qs.Nodup)
    (hqs : forall q, q ∈ qs -> q < n)
    (h : IsRenamed π (fun r c => f (cell n r c)) fun r c => g (cell n r c)) :
    IsRenamed π (fun r c => act (bothSides n qs) u f (cell n r c))
      fun r c => act (bothSides n (qs.map π.move)) u g (cell n r c) := by
  intro r c hr hc
  dsimp only
  rw [act_bothSides hnodup hqs hr hc, act_bothSides (π.frame.nodup_map hqs hnodup)
    (π.lt_of_mem_map hqs) (π.index_lt r) (π.index_lt c), List.length_map,
    π.frame.gather_map hqs hr, π.frame.gather_map hqs hc]
  apply Finset.sum_congr rfl
  intro j _
  apply Finset.sum_congr rfl
  intro i _
  rw [← π.frame.overwrite_map hqs hnodup hr, ← π.frame.overwrite_map hqs hnodup hc]
  congr 1
  exact h _ _ (overwrite_lt i hqs hr) (overwrite_lt j hqs hc)

theorem IsRenamed.reduceTo_map (h : IsRenamed π ρ σ) (hnodup : qs.Nodup)
    (hqs : forall q, q ∈ qs -> q < n) (a b : Nat) :
    reduceTo n (qs.map π.move) σ a b = reduceTo n qs ρ a b := by
  unfold reduceTo
  rw [← π.sum_index]
  apply Finset.sum_congr rfl
  intro x hx
  have hx := Finset.mem_range.mp hx
  rw [π.frame.gather_map hqs hx, ← π.frame.overwrite_map hqs hnodup hx,
    h x _ hx (overwrite_lt b hqs hx)]

end MixedState
