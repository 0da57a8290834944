import MixedState.Proofs.Density.Channel
import MixedState.Proofs.Density.Kernel

/-!
# Matrices on listed qubits

A matrix on listed qubits is lifted to the whole register: it is the matrix on the
listed bits and the identity on the others.  Complete lists stay complete.
-/

namespace MixedState

open MixedState.Basis

/-- The entries join indices that agree outside of the listed qubits. -/
noncomputable def liftOn (qs : List Nat) (u : Entries) : Entries :=
  fun r a => if overwrite qs r (gather qs a) = a then u (gather qs r) (gather qs a) else 0

variable {n : Nat} {qs : List Nat} {u : Entries}

theorem sum_overwrite {r : Nat} (hnodup : qs.Nodup) (hqs : forall q, q ∈ qs -> q < n)
    (hr : r < twoPow n) (f : Nat -> Amplitude ℝ) :
    ∑ a ∈ Finset.range (twoPow n), (if overwrite qs r (gather qs a) = a then f a else 0) =
      ∑ j ∈ Finset.range (twoPow qs.length), f (overwrite qs r j) := by
  rw [← Finset.sum_filter]
  apply Finset.sum_nbij' (gather qs) (overwrite qs r)
  · intro a _
    exact Finset.mem_range.mpr (gather_lt qs a)
  · intro j hj
    rw [Finset.mem_filter, gather_overwrite r hnodup (Finset.mem_range.mp hj)]
    exact ⟨Finset.mem_range.mpr (overwrite_lt j hqs hr), rfl⟩
  · intro a ha
    exact (Finset.mem_filter.mp ha).2
  · intro j hj
    exact gather_overwrite r hnodup (Finset.mem_range.mp hj)
  · intro a ha
    rw [(Finset.mem_filter.mp ha).2]

theorem sum_liftOn {r : Nat} (hnodup : qs.Nodup) (hqs : forall q, q ∈ qs -> q < n)
    (hr : r < twoPow n) (f : Nat -> Amplitude ℝ) :
    ∑ a ∈ Finset.range (twoPow n), liftOn qs u r a * f a = act qs u f r := by
  unfold liftOn act
  simp only [ite_mul, zero_mul]
  rw [sum_overwrite hnodup hqs hr]
  apply Finset.sum_congr rfl
  intro j hj
  rw [gather_overwrite r hnodup (Finset.mem_range.mp hj)]

theorem conj_liftOn (r a : Nat) :
    (liftOn qs u r a).conj = liftOn qs (fun i j => (u i j).conj) r a := by
  unfold liftOn
  rw [Amplitude.conj_ite, Amplitude.conj_zero]

theorem sandwich_liftOn {ρ : Entries} {r c : Nat} (hnodup : qs.Nodup)
    (hqs : forall q, q ∈ qs -> q < n) (hr : r < twoPow n) (hc : c < twoPow n) :
    sandwich (twoPow n) (liftOn qs u) ρ r c =
      act qs (fun i j => (u i j).conj) (fun b => act qs u (fun a => ρ a b) r) c := by
  rw [← sum_liftOn hnodup hqs hc]
  simp only [← sum_liftOn hnodup hqs hr, ← conj_liftOn, Finset.mul_sum]
  unfold sandwich
  rw [Finset.sum_comm]
  apply Finset.sum_congr rfl
  intro b _
  apply Finset.sum_congr rfl
  intro a _
  ring

theorem overwrite_gather_comm (hnodup : qs.Nodup) (r a : Nat) :
    overwrite qs r (gather qs a) = a ↔ overwrite qs a (gather qs r) = r := by
  constructor
  · intro h
    rw [← h, overwrite_overwrite _ _ _ hnodup, overwrite_gather r hnodup]
  · intro h
    rw [← h, overwrite_overwrite _ _ _ hnodup, overwrite_gather a hnodup]

theorem gram_liftOn {a b : Nat} (hnodup : qs.Nodup) (hqs : forall q, q ∈ qs -> q < n)
    (ha : a < twoPow n) :
    gram (twoPow n) (liftOn qs u) a b =
      if overwrite qs a (gather qs b) = b then
        gram (twoPow qs.length) u (gather qs a) (gather qs b)
      else 0 := by
  have hterm : forall r, (liftOn qs u r a).conj * liftOn qs u r b =
      if overwrite qs a (gather qs r) = r then
        (u (gather qs r) (gather qs a)).conj * liftOn qs u r b
      else 0 := by
    intro r
    unfold liftOn
    rw [Amplitude.conj_ite, Amplitude.conj_zero, ite_mul, zero_mul]
    exact if_congr (overwrite_gather_comm hnodup r a) rfl rfl
  have hjoined : forall j, j ∈ Finset.range (twoPow qs.length) ->
      (u (gather qs (overwrite qs a j)) (gather qs a)).conj * liftOn qs u (overwrite qs a j) b =
        if overwrite qs a (gather qs b) = b then
          (u j (gather qs a)).conj * u j (gather qs b)
        else 0 := by
    intro j hj
    unfold liftOn
    rw [gather_overwrite a hnodup (Finset.mem_range.mp hj), overwrite_overwrite _ _ _ hnodup,
      mul_ite, mul_zero]
  unfold gram
  simp only [hterm]
  rw [sum_overwrite hnodup hqs ha, Finset.sum_congr rfl hjoined]
  split
  · rfl
  · exact Finset.sum_const_zero

theorem IsComplete.liftOn {ks : List Entries} (hnodup : qs.Nodup)
    (hqs : forall q, q ∈ qs -> q < n) (hks : IsComplete (twoPow qs.length) ks) :
    IsComplete (twoPow n) (ks.map (liftOn qs)) := by
  intro a b ha _
  rw [List.map_map]
  have hgram : (fun k => gram (twoPow n) k a b) ∘ MixedState.liftOn qs = fun k =>
      if overwrite qs a (gather qs b) = b then
        gram (twoPow qs.length) k (gather qs a) (gather qs b)
      else 0 :=
    funext fun k => gram_liftOn hnodup hqs ha
  rw [hgram]
  by_cases hjoin : overwrite qs a (gather qs b) = b
  · simp only [if_pos hjoin]
    rw [hks _ _ (gather_lt qs a) (gather_lt qs b)]
    by_cases hab : a = b
    · rw [hab, if_pos rfl, if_pos rfl]
    · have hne : ¬gather qs a = gather qs b := by
        intro h
        rw [← h, overwrite_gather a hnodup] at hjoin
        exact hab hjoin
      rw [if_neg hne, if_neg hab]
  · have hab : ¬a = b := by
      intro h
      rw [h, overwrite_gather b hnodup] at hjoin
      exact hjoin rfl
    simp only [if_neg hjoin, if_neg hab]
    simp

end MixedState
