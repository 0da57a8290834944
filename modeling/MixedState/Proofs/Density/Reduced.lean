import MixedState.Proofs.Basis.Joined
import MixedState.Proofs.Density.Lift

/-!
# Reduced matrices

The matrix of some qubits is left when the others are traced out.  Its trace is that of
the whole, and an observable on these qubits sees nothing else.
-/

namespace MixedState

open MixedState.Basis

/-- The row spells the first number, and the column is the row with the second number
in the place of the first. -/
noncomputable def reduceTo (n : Nat) (qs : List Nat) (ρ : Entries) : Entries :=
  fun a b => ∑ x ∈ Finset.range (twoPow n),
    if gather qs x = a then ρ x (overwrite qs x b) else 0

variable {n : Nat} {qs : List Nat} {ρ : Entries}

theorem reduceTo_congr {σ : Entries} (hqs : forall q, q ∈ qs -> q < n)
    (h : forall r c, r < twoPow n -> c < twoPow n -> ρ r c = σ r c) (a b : Nat) :
    reduceTo n qs ρ a b = reduceTo n qs σ a b := by
  apply Finset.sum_congr rfl
  intro x hx
  have hx := Finset.mem_range.mp hx
  rw [h x (overwrite qs x b) hx (overwrite_lt b hqs hx)]

theorem reduceTo_self (hnodup : qs.Nodup) (a : Nat) :
    reduceTo n qs ρ a a =
      ∑ x ∈ Finset.range (twoPow n), if gather qs x = a then ρ x x else 0 := by
  apply Finset.sum_congr rfl
  intro x _
  by_cases hx : gather qs x = a
  · rw [if_pos hx, if_pos hx, ← hx, overwrite_gather x hnodup]
  · rw [if_neg hx, if_neg hx]

theorem reduceTo_self_eq_ofReal (hnodup : qs.Nodup)
    (hhermitian : forall x, x < twoPow n -> ρ x x = (ρ x x).conj) (a : Nat) :
    reduceTo n qs ρ a a = Amplitude.ofReal
      (∑ x ∈ Finset.range (twoPow n), if gather qs x = a then (ρ x x).re else 0) := by
  have hreal : forall x, x < twoPow n -> (ρ x x).im = 0 := by
    intro x hx
    have him := congrArg Amplitude.im (hhermitian x hx)
    rw [Amplitude.conj_im] at him
    linarith
  rw [reduceTo_self hnodup]
  ext
  · rw [Amplitude.re_sum, Amplitude.ofReal_re]
    apply Finset.sum_congr rfl
    intro x _
    split
    · rfl
    · rfl
  · rw [Amplitude.im_sum, Amplitude.ofReal_im]
    apply Finset.sum_eq_zero
    intro x hx
    split
    · exact hreal x (Finset.mem_range.mp hx)
    · rfl

theorem reduceTo_eq_sum_blocks (hnodup : qs.Nodup) (hqs : forall q, q ∈ qs -> q < n)
    (hn : n ≤ 63) {a : Nat} (ha : a < twoPow qs.length) (b : Nat) :
    reduceTo n qs ρ a b = ∑ t ∈ Finset.range (twoPow (n - qs.length)),
      ρ (overwrite qs (spread (sorted qs) t) a) (overwrite qs (spread (sorted qs) t) b) := by
  unfold reduceTo
  rw [sum_blocks hnodup hqs hn]
  apply Finset.sum_congr rfl
  intro t _
  have hterm : forall j, j ∈ Finset.range (twoPow qs.length) ->
      (if gather qs (overwrite qs (spread (sorted qs) t) j) = a then
        ρ (overwrite qs (spread (sorted qs) t) j)
          (overwrite qs (overwrite qs (spread (sorted qs) t) j) b) else 0) =
      if j = a then ρ (overwrite qs (spread (sorted qs) t) j)
        (overwrite qs (spread (sorted qs) t) b) else 0 := by
    intro j hj
    rw [gather_overwrite _ hnodup (Finset.mem_range.mp hj), overwrite_overwrite _ _ _ hnodup]
  rw [Finset.sum_congr rfl hterm]
  exact sum_range_single ha fun j => ρ (overwrite qs (spread (sorted qs) t) j)
    (overwrite qs (spread (sorted qs) t) b)

theorem overwrite_range {x b : Nat} (hx : x < twoPow n) (hb : b < twoPow n) :
    overwrite (List.range n) x b = b := by
  have hlt := overwrite_lt b (fun q hq => List.mem_range.mp hq) hx
  rw [← gather_range hlt]
  exact gather_overwrite x List.nodup_range (by rw [List.length_range]; exact hb)

theorem reduceTo_range {a b : Nat} (ha : a < twoPow n) (hb : b < twoPow n) :
    reduceTo n (List.range n) ρ a b = ρ a b := by
  have hterm : forall x, x ∈ Finset.range (twoPow n) ->
      (if gather (List.range n) x = a then ρ x (overwrite (List.range n) x b) else 0) =
        if x = a then ρ x b else 0 := by
    intro x hx
    have hlt := Finset.mem_range.mp hx
    rw [gather_range hlt, overwrite_range hlt hb]
  unfold reduceTo
  rw [Finset.sum_congr rfl hterm]
  exact sum_range_single ha fun x => ρ x b

theorem sum_liftOn_column {u : Entries} {x : Nat} (hnodup : qs.Nodup)
    (hqs : forall q, q ∈ qs -> q < n) (hx : x < twoPow n) (f : Nat -> Amplitude ℝ) :
    ∑ r ∈ Finset.range (twoPow n), liftOn qs u r x * f r =
      ∑ a ∈ Finset.range (twoPow qs.length), u a (gather qs x) * f (overwrite qs x a) := by
  have hterm : forall r, liftOn qs u r x * f r =
      if overwrite qs x (gather qs r) = r then u (gather qs r) (gather qs x) * f r else 0 := by
    intro r
    unfold liftOn
    rw [ite_mul, zero_mul]
    exact if_congr (overwrite_gather_comm hnodup r x) rfl rfl
  simp only [hterm]
  rw [sum_overwrite hnodup hqs hx]
  apply Finset.sum_congr rfl
  intro a ha
  rw [gather_overwrite x hnodup (Finset.mem_range.mp ha)]

/-- An observable on the listed qubits only sees their reduced matrix. -/
theorem trace_liftOn_mul (hnodup : qs.Nodup) (hqs : forall q, q ∈ qs -> q < n) (u : Entries) :
    ∑ x ∈ Finset.range (twoPow n), ∑ r ∈ Finset.range (twoPow n), liftOn qs u r x * ρ x r =
      ∑ a ∈ Finset.range (twoPow qs.length), ∑ b ∈ Finset.range (twoPow qs.length),
        u a b * reduceTo n qs ρ b a := by
  have hrow : forall x, x ∈ Finset.range (twoPow n) ->
      ∑ r ∈ Finset.range (twoPow n), liftOn qs u r x * ρ x r =
        ∑ a ∈ Finset.range (twoPow qs.length), u a (gather qs x) * ρ x (overwrite qs x a) :=
    fun x hx => sum_liftOn_column hnodup hqs (Finset.mem_range.mp hx) (ρ x)
  have hcolumn : forall a, ∑ b ∈ Finset.range (twoPow qs.length), u a b * reduceTo n qs ρ b a =
      ∑ x ∈ Finset.range (twoPow n), u a (gather qs x) * ρ x (overwrite qs x a) := by
    intro a
    unfold reduceTo
    simp only [Finset.mul_sum, mul_ite, mul_zero]
    rw [Finset.sum_comm]
    apply Finset.sum_congr rfl
    intro x _
    rw [Finset.sum_ite_eq, if_pos (Finset.mem_range.mpr (gather_lt qs x))]
  rw [Finset.sum_congr rfl hrow, Finset.sum_comm]
  apply Finset.sum_congr rfl
  intro a _
  rw [hcolumn]

end MixedState
