import MixedState.Proofs.Basis.Joined
import MixedState.Proofs.Machine.Losses
import MixedState.Proofs.Machine.Readouts

/-!
# Partial traces entry by entry

The row and the column of a term spell what the entry asks for at the listed qubits, and
both carry the same assignment of the other qubits.  The places that are read are those of
all assignments, each of them once.
-/

namespace MixedState

open MixedState.Basis

/-!
## The places of the terms
-/

namespace Machine

def readPlaces (n : Nat) (qs : List Nat) (a b : Nat) : List Nat :=
  (traceBases (sorted (bothSides n qs)) (twoPow (n - qs.length))).map fun base =>
    base ||| scatter (bothSides n qs) (a + b * twoPow qs.length)

section Places

variable {n a b : Nat} {qs : List Nat} (hnodup : qs.Nodup) (hqs : forall q, q ∈ qs -> q < n)

include hnodup hqs

theorem readPlaces_eq (hn : 2 * n < wordBits) (ha : a < twoPow qs.length)
    (hb : b < twoPow qs.length) :
    readPlaces n qs a b = (List.range (twoPow (n - qs.length))).map fun t =>
      cell n (joined n qs a t) (joined n qs b t) := by
  have hlen := length_le_of_nodup hnodup hqs
  have hword : wordBits = 64 := rfl
  unfold readPlaces traceBases
  rw [List.map_map]
  apply List.map_congr_left
  intro t ht
  have ht := List.mem_range.mp ht
  have hstart : spread (sorted qs) t < twoPow n := spread_sorted_lt hlen (by omega) ht
  change spread _ _ ||| scatter _ _ = _
  rw [or_scatter_traceBase hnodup hqs hn ht, Nat.mul_comm b,
    overwrite_bothSides hnodup hqs hstart hstart ha hb,
    overwrite_spread_eq_joined hnodup hqs (by omega) ht,
    overwrite_spread_eq_joined hnodup hqs (by omega) ht]

theorem mem_readPlaces_iff (hn : 2 * n < wordBits) (ha : a < twoPow qs.length)
    (hb : b < twoPow qs.length) {p : Nat} :
    p ∈ readPlaces n qs a b ↔ exists r c, r < twoPow n ∧ c < twoPow n ∧ p = cell n r c ∧
      gather qs r = a ∧ gather qs c = b ∧
        forall q, q < n -> q ∉ qs -> r.testBit q = c.testBit q := by
  rw [readPlaces_eq hnodup hqs hn ha hb, List.mem_map]
  constructor
  · rintro ⟨t, _, rfl⟩
    have hrow := joins_joined hnodup hqs a t
    have hcolumn := joins_joined hnodup hqs b t
    refine ⟨_, _, hrow.lt, hcolumn.lt, rfl, hrow.gather_eq ha, hcolumn.gather_eq hb, ?_⟩
    intro q hq hother
    rcases List.mem_iff_getElem?.mp (mem_unlisted.mpr ⟨hq, hother⟩) with ⟨i, hi⟩
    rw [hrow.others i q hi, hcolumn.others i q hi]
  · rintro ⟨r, c, hr, hc, rfl, rfl, rfl, hothers⟩
    have hlt := gather_unlisted_lt hnodup hqs r
    have hsame : gather (unlisted n qs) r = gather (unlisted n qs) c := by
      apply gather_congr
      intro q hq
      exact hothers q (mem_unlisted.mp hq).1 (mem_unlisted.mp hq).2
    refine ⟨gather (unlisted n qs) r, List.mem_range.mpr hlt, ?_⟩
    rw [joined_gather hnodup hqs hr, hsame, joined_gather hnodup hqs hc]

theorem nodup_readPlaces (hn : 2 * n < wordBits) (ha : a < twoPow qs.length)
    (hb : b < twoPow qs.length) : (readPlaces n qs a b).Nodup := by
  rw [readPlaces_eq hnodup hqs hn ha hb]
  apply List.Nodup.map_on _ List.nodup_range
  intro t ht t' ht' hplace
  have hrow := (cell_eq_cell_iff (joins_joined hnodup hqs a t).lt
    (joins_joined hnodup hqs a t').lt).mp hplace
  exact joined_injective hnodup hqs (List.mem_range.mp ht) (List.mem_range.mp ht') hrow.1

theorem lt_of_mem_readPlaces (hn : 2 * n < wordBits) (ha : a < twoPow qs.length)
    (hb : b < twoPow qs.length) {p : Nat} (hp : p ∈ readPlaces n qs a b) :
    p < twoPow (2 * n) := by
  rcases (mem_readPlaces_iff hnodup hqs hn ha hb).mp hp with ⟨r, c, hr, hc, rfl, _⟩
  exact cell_lt hr hc

end Places

/-!
## The reduced matrix
-/

variable {n : Nat} {m : Machine ℝ} {qs : List Nat}

/-- A reduced matrix is the partial trace: each of its entries adds up one term for every
assignment of the other qubits, and reads every such place of the buffer once. -/
theorem reduced_sums_assignments (h : m.Lists n qs) (hnodup : qs.Nodup) (hne : qs ≠ []) :
    exists reduced, m.reduced qs false = (.ok reduced, m) ∧ m.partialTrace qs = .ok reduced ∧
      reduced.rows = twoPow qs.length ∧ reduced.cols = twoPow qs.length ∧
      forall a b, a < twoPow qs.length -> b < twoPow qs.length ->
        reduced.entry a b = (∑ t ∈ Finset.range (twoPow (n - qs.length)),
          m.store.data.toEntries n (joined n qs a t) (joined n qs b t)) ∧
        (forall t, Joins n qs a t (joined n qs a t) ∧ Joins n qs b t (joined n qs b t)) ∧
        readPlaces n qs a b = ((List.range (twoPow (n - qs.length))).map fun t =>
          cell n (joined n qs a t) (joined n qs b t)) ∧
        (readPlaces n qs a b).Nodup ∧
        (forall p, p ∈ readPlaces n qs a b ↔ exists r c, r < twoPow n ∧ c < twoPow n ∧
          p = cell n r c ∧ gather qs r = a ∧ gather qs c = b ∧
            forall q, q < n -> q ∉ qs -> r.testBit q = c.testBit q) ∧
        forall p, p ∈ readPlaces n qs a b -> p < m.store.data.size := by
  have hwidth := h.width
  have hsmall := h.small
  have hword : wordBits = 64 := rfl
  subst hwidth
  rcases exists_partialTrace h.small h.full hnodup h.inside with ⟨reduced, htrace, hholds⟩
  rcases exists_reduced h.width_eq h.small h.full hne hnodup h.inside with
    ⟨reduced', hreduced, hholds'⟩
  obtain rfl := hholds'.unique hholds fun _ _ _ _ => rfl
  refine ⟨reduced', Prod.ext hreduced (reduced_false m qs), htrace, hholds.rows, hholds.cols, ?_⟩
  intro a b ha hb
  refine ⟨?_, ?_, readPlaces_eq hnodup h.inside h.small ha hb,
    nodup_readPlaces hnodup h.inside h.small ha hb,
    fun p => mem_readPlaces_iff hnodup h.inside h.small ha hb, ?_⟩
  · rw [hholds.entry a b ha hb, reduceTo_eq_sum_blocks hnodup h.inside (by omega) ha]
    apply Finset.sum_congr rfl
    intro t ht
    have ht := Finset.mem_range.mp ht
    rw [overwrite_spread_eq_joined hnodup h.inside (by omega) ht,
      overwrite_spread_eq_joined hnodup h.inside (by omega) ht]
  · intro t
    exact ⟨joins_joined hnodup h.inside a t, joins_joined hnodup h.inside b t⟩
  · intro p hp
    rw [h.full]
    exact lt_of_mem_readPlaces hnodup h.inside h.small ha hb hp

theorem reduced_sums_assignments_second :
    let m : Machine ℝ := ofStore ⟨2, 0, Buffer.tabulate 16 fun x => ⟨x, 1⟩⟩
    exists reduced, m.reduced [1] false = (.ok reduced, m) ∧ reduced.entry 0 1 = ⟨21, 2⟩ ∧
      readPlaces 2 [1] 0 1 = [8, 13] := by
  intro m
  have hlists : m.Lists 2 [1] :=
    ⟨⟨⟨rfl, rfl, Or.inl (Buffer.size_tabulate _ _)⟩, Buffer.size_tabulate _ _, by decide⟩,
      by decide⟩
  rcases reduced_sums_assignments hlists (by decide) (by decide) with
    ⟨reduced, hreduced, _, _, _, hentries⟩
  rcases hentries 0 1 (by decide) (by decide) with ⟨hsum, _, hplaces, _⟩
  have hread : forall x, x < 16 -> m.store.data.entry x = ⟨x, 1⟩ := fun x hx =>
    Buffer.entry_tabulate_of_lt _ hx
  refine ⟨reduced, hreduced, ?_, hplaces.trans (by decide)⟩
  rw [hsum]
  change ∑ t ∈ Finset.range 2, _ = _
  rw [Finset.sum_range_succ, Finset.sum_range_one]
  change m.store.data.entry 8 + m.store.data.entry 13 = _
  rw [hread 8 (by decide), hread 13 (by decide)]
  ext
  · change ((8 : Nat) : ℝ) + ((13 : Nat) : ℝ) = 21
    norm_num
  · change (1 : ℝ) + 1 = 2
    norm_num

end Machine

end MixedState
