import MixedState.Proofs.Exact
import MixedState.Proofs.Machine.Commuting
import MixedState.Proofs.Machine.Readouts

/-!
# No signalling

A channel on some qubits leaves the reduced matrix of any other qubits as it is, and so
does an instruction that keeps traces.
-/

namespace MixedState

open MixedState.Basis

theorem sum_act_of_isChannel {n y z : Nat} {ps : List Nat} {u : Entries} (hps : ps.Nodup)
    (hpsInside : forall p, p ∈ ps -> p < n) (hu : Kernel.IsChannel (twoPow ps.length) u)
    (hy : y < twoPow n) (hz : z < twoPow n) (f : Nat -> Amplitude ℝ) :
    ∑ k ∈ Finset.range (twoPow ps.length),
        act (bothSides n ps) u f (cell n (overwrite ps y k) (overwrite ps z k)) =
      ∑ k ∈ Finset.range (twoPow ps.length),
        f (cell n (overwrite ps y k) (overwrite ps z k)) := by
  have hterm : forall k, k ∈ Finset.range (twoPow ps.length) ->
      act (bothSides n ps) u f (cell n (overwrite ps y k) (overwrite ps z k)) =
        ∑ j ∈ Finset.range (twoPow ps.length), ∑ i ∈ Finset.range (twoPow ps.length),
          u (k + twoPow ps.length * k) (i + twoPow ps.length * j) *
            f (cell n (overwrite ps y i) (overwrite ps z j)) := by
    intro k hk
    have hk := Finset.mem_range.mp hk
    rw [act_bothSides hps hpsInside (overwrite_lt k hpsInside hy)
      (overwrite_lt k hpsInside hz), gather_overwrite y hps hk, gather_overwrite z hps hk]
    simp only [overwrite_overwrite _ _ _ hps]
  have hinner : forall i j, i ∈ Finset.range (twoPow ps.length) ->
      j ∈ Finset.range (twoPow ps.length) ->
      ∑ k ∈ Finset.range (twoPow ps.length),
          u (k + twoPow ps.length * k) (i + twoPow ps.length * j) *
            f (cell n (overwrite ps y i) (overwrite ps z j)) =
        if i = j then f (cell n (overwrite ps y i) (overwrite ps z j)) else 0 := by
    intro i j hi hj
    rw [← Finset.sum_mul, hu.sum_diagonal (Finset.mem_range.mp hi) (Finset.mem_range.mp hj),
      ite_mul, one_mul, zero_mul]
    exact if_congr eq_comm rfl rfl
  rw [Finset.sum_congr rfl hterm, Finset.sum_comm]
  apply Finset.sum_congr rfl
  intro j hj
  rw [Finset.sum_comm, Finset.sum_congr rfl fun i hi => hinner i j hi hj]
  exact sum_range_single (Finset.mem_range.mp hj) fun i =>
    f (cell n (overwrite ps y i) (overwrite ps z j))

theorem reduceTo_act {n : Nat} {ps qs : List Nat} {u : Entries} (hn : n ≤ 63)
    (hps : ps.Nodup) (hpsInside : forall p, p ∈ ps -> p < n) (hqs : qs.Nodup)
    (hqsInside : forall q, q ∈ qs -> q < n) (hdisjoint : forall p, p ∈ ps -> p ∉ qs)
    (hu : Kernel.IsChannel (twoPow ps.length) u) (f : Nat -> Amplitude ℝ) (a b : Nat) :
    reduceTo n qs (fun r c => act (bothSides n ps) u f (cell n r c)) a b =
      reduceTo n qs (fun r c => f (cell n r c)) a b := by
  have hdisjoint' : forall q, q ∈ qs -> q ∉ ps := fun q hq hp => hdisjoint q hp hq
  have hlen := length_le_of_nodup hps hpsInside
  unfold reduceTo
  rw [sum_blocks hps hpsInside hn, sum_blocks hps hpsInside hn]
  apply Finset.sum_congr rfl
  intro t ht
  have hy := spread_sorted_lt hlen hn (Finset.mem_range.mp ht)
  generalize spread (sorted ps) t = y at hy
  simp only [gather_overwrite_of_disjoint hdisjoint', overwrite_comm hqs hps hdisjoint']
  by_cases ha : gather qs y = a
  · simp only [if_pos ha]
    exact sum_act_of_isChannel hps hpsInside hu hy (overwrite_lt b hqsInside hy) f
  · simp only [if_neg ha]

namespace Machine

variable {n : Nat} {m : Machine ℝ} {ps qs : List Nat}

theorem reduced_transformed (hps : m.Hosts n ps) (hqs : m.Hosts n qs)
    (hdisjoint : forall p, p ∈ ps -> p ∉ qs) (hne : qs ≠ []) {u : Entries}
    (hu : Kernel.IsChannel (twoPow ps.length) u) :
    ((m.transformed ps u).reduced qs false).1 = (m.reduced qs false).1 := by
  rcases hps.size with hfull | hempty
  · have hnext : (m.transformed ps u).Hosts n qs :=
      ⟨hqs.toIsRegister.transformed ps u, hqs.small, hqs.nodup, hqs.inside⟩
    have hsize : (m.transformed ps u).store.data.size = twoPow (2 * n) :=
      (Buffer.size_tabulate _ _).trans hfull
    rcases hqs.exists_reduced hfull hne with ⟨before, hbefore, hholds⟩
    rcases hnext.exists_reduced hsize hne with ⟨after, hafter, hholds'⟩
    rw [hbefore, hafter]
    congr 1
    apply hholds'.unique hholds
    intro a b _ _
    have hn : n ≤ 63 := by
      have hsmall := hps.small
      unfold wordBits at hsmall
      omega
    rw [reduceTo_congr hqs.inside (fun r c => hps.toIsRegister.toEntries_transformed hfull u)]
    exact reduceTo_act hn hps.nodup hps.inside hqs.nodup hqs.inside hdisjoint hu
      m.store.data.entry a b
  · rw [transformed_of_empty hempty]

end Machine

namespace Experiment

variable {n : Nat} {e : Experiment ℝ} {op : Instruction ℝ} {qs : List Nat}

/-- Whatever a physical instruction does to its qubits, and whether or not it is run or
fails, the reduced matrix of other qubits stays.  There is one unless the state was moved
out. -/
theorem reduced_apply (hn : 4 * n < wordBits) (he : e.machine.IsRegister n)
    (hkind : op.kind ∈ [.gate, .matrix, .diagonal, .kraus, .reset]) (hop : op.IsPhysical)
    (hinside : forall q, q ∈ op.qubits -> q < n) (hne : qs ≠ []) (hqs : qs.Nodup)
    (hqsInside : forall q, q ∈ qs -> q < n) (hdisjoint : forall q, q ∈ op.qubits -> q ∉ qs)
    (final : Bool) :
    ((e.apply op final).2.machine.reduced qs false).1 = (e.machine.reduced qs false).1 ∧
      (e.machine.store.data.size = twoPow (2 * n) ->
        exists reduced, (e.machine.reduced qs false).1 = .ok reduced) := by
  have hread : e.machine.Hosts n qs := ⟨he, hn, hqs, hqsInside⟩
  refine ⟨?_, fun hfull => ?_⟩
  swap
  · rcases hread.exists_reduced hfull hne with ⟨reduced, hreduced, _⟩
    exact ⟨reduced, hreduced⟩
  have hoperator : op.kind.isOperator = true := by
    simp only [List.mem_cons, List.not_mem_nil, or_false] at hkind
    rcases hkind with h | h | h | h | h <;> rw [h] <;> rfl
  have hosts : e.machine.Hosts n op.qubits := ⟨he, hn, hop.nodup, hinside⟩
  cases hallows : e.machine.classical.allows op with
  | false =>
      unfold apply
      rw [hallows]
      rfl
  | true =>
      rcases exists_apply_eq_evolve hoperator with ⟨u, hphysical, hu⟩
      rw [hu n e final hosts hallows]
      cases u with
      | error fault =>
          rfl
      | ok v =>
          exact Machine.reduced_transformed hosts hread hdisjoint hne (hphysical hop v rfl)

noncomputable def entangled : Experiment ℝ :=
  ⟨Machine.ofStore ⟨2, 0, Buffer.tabulate 16 fun x =>
    if x % 4 % 3 = 0 ∧ x / 4 % 3 = 0 then ⟨1 / 2, 0⟩ else 0⟩, .empty, .ofSeed 0⟩

theorem reduced_apply_entangled :
    exists reduced, (entangled.machine.reduced [0] false).1 = .ok reduced ∧
      ((entangled.apply (Instruction.reset [1]) false).2.machine.reduced [0] false).1 =
        .ok reduced := by
  have hphysical : (Instruction.reset [1] : Instruction ℝ).IsPhysical := by
    refine ⟨List.nodup_singleton 1, by decide, ?_, ?_, ?_, ?_, ?_, ?_⟩
    all_goals
      intro hkind
      cases hkind
  have hfull : entangled.machine.store.data.size = twoPow (2 * 2) := Buffer.size_tabulate _ _
  have hne : [0] ≠ [] := by decide
  rcases reduced_apply (n := 2) (by decide) ⟨rfl, rfl, Or.inl hfull⟩ (by decide) hphysical
    (by decide) hne (by decide) (by decide) (by decide) false with ⟨hsame, hexists⟩
  rcases hexists hfull with ⟨reduced, hreduced⟩
  exact ⟨reduced, hreduced, hsame.trans hreduced⟩

end Experiment

end MixedState
