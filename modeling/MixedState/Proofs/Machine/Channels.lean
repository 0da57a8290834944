import MixedState.Proofs.Exact
import MixedState.Proofs.Density.Kraus
import MixedState.Proofs.Density.Moves
import MixedState.Proofs.Machine.Losses

/-!
# Operators compute the channels that they name

Kraus matrices, a single matrix and a diagonal on listed qubits all leave `Σ K ρ K†`,
where each matrix acts on the bits at the qubits in the order of the list.
-/

namespace MixedState

open MixedState.Basis

/-- The entries of `Σ K ρ K†`: the listed bits of the row and of the column, the first of
them least significant, run through all values. -/
noncomputable def krausSum (qs : List Nat) (ks : List Entries) (ρ : Entries) : Entries :=
  fun r c => (ks.map fun k =>
    ∑ a ∈ Finset.range (twoPow qs.length), ∑ b ∈ Finset.range (twoPow qs.length),
      k (gather qs r) a * ρ (overwrite qs r a) (overwrite qs c b) * (k (gather qs c) b).conj).sum

def listedBlock (qs : List Nat) (ρ : Entries) (r c : Nat) : Entries :=
  fun a b => ρ (overwrite qs r a) (overwrite qs c b)

/-- `m'` is `m` with the matrix `σ` of `n` qubits in its buffer. -/
structure Machine.Holds (n : Nat) (m : Machine ℝ) (σ : Entries) (m' : Machine ℝ) : Prop where
  rest : m' = m.withData m'.store.data
  full : m'.store.data.size = twoPow (2 * n)
  entries : forall r c, r < twoPow n -> c < twoPow n -> m'.store.data.toEntries n r c = σ r c

variable {n : Nat} {m m' : Machine ℝ} {qs : List Nat}

/-!
## From superoperators to sums
-/

theorem sum_act_eq_krausSum (qs : List Nat) (ks : List Entries) (ρ : Entries) (r c : Nat) :
    ∑ j ∈ Finset.range (twoPow qs.length), ∑ i ∈ Finset.range (twoPow qs.length),
        (ks.map fun k => (k (gather qs c) j).conj * k (gather qs r) i).sum *
          ρ (overwrite qs r i) (overwrite qs c j) =
      krausSum qs ks ρ r c := by
  induction ks with
  | nil =>
      simp [krausSum]
  | cons k rest ih =>
      have hcons : krausSum qs (k :: rest) ρ r c =
          ∑ a ∈ Finset.range (twoPow qs.length), ∑ b ∈ Finset.range (twoPow qs.length),
            k (gather qs r) a * ρ (overwrite qs r a) (overwrite qs c b) *
              (k (gather qs c) b).conj + krausSum qs rest ρ r c := List.sum_cons
      simp only [List.map_cons, List.sum_cons, add_mul, Finset.sum_add_distrib]
      rw [hcons, ih, Finset.sum_comm]
      congr 1
      refine Finset.sum_congr rfl fun a _ => Finset.sum_congr rfl fun b _ => ?_
      ring

/-!
## Blocks
-/

section Blocks

variable {ρ : Entries} {r c : Nat}

theorem krausSum_eq_channel (ks : List Entries) :
    krausSum qs ks ρ r c =
      channel (twoPow qs.length) ks (listedBlock qs ρ r c) (gather qs r) (gather qs c) :=
  rfl

theorem listedBlock_gather (hnodup : qs.Nodup) :
    listedBlock qs ρ r c (gather qs r) (gather qs c) = ρ r c := by
  unfold listedBlock
  rw [overwrite_gather r hnodup, overwrite_gather c hnodup]

theorem sandwich_liftOn_eq_listedBlock (hnodup : qs.Nodup) (hqs : forall q, q ∈ qs -> q < n)
    (hr : r < twoPow n) (hc : c < twoPow n) (u : Entries) :
    sandwich (twoPow n) (liftOn qs u) ρ r c =
      sandwich (twoPow qs.length) u (listedBlock qs ρ r c) (gather qs r) (gather qs c) := by
  rw [sandwich_liftOn hnodup hqs hr hc]
  unfold sandwich act
  simp only [Finset.mul_sum]
  rw [Finset.sum_comm]
  refine Finset.sum_congr rfl fun a _ => Finset.sum_congr rfl fun b _ => ?_
  unfold listedBlock
  ring

theorem krausSum_congr {k k' : Entries}
    (h : forall i j, i < twoPow qs.length -> j < twoPow qs.length -> k i j = k' i j) :
    krausSum qs [k] ρ = krausSum qs [k'] ρ := by
  funext r c
  unfold krausSum
  rw [List.map_singleton, List.map_singleton]
  congr 2
  refine Finset.sum_congr rfl fun a ha => Finset.sum_congr rfl fun b hb => ?_
  rw [h _ a (gather_lt qs r) (Finset.mem_range.mp ha),
    h _ b (gather_lt qs c) (Finset.mem_range.mp hb)]

theorem krausSum_monomial {π : Nat -> Nat} {φ : Nat -> Amplitude ℝ}
    (hπ : forall x, x < twoPow qs.length -> π x < twoPow qs.length) :
    krausSum qs [monomial π φ] ρ r c =
      φ (gather qs r) * ρ (overwrite qs r (π (gather qs r))) (overwrite qs c (π (gather qs c))) *
        (φ (gather qs c)).conj := by
  rw [krausSum_eq_channel]
  unfold channel
  rw [List.map_singleton, List.sum_singleton,
    sandwich_monomial hπ (gather_lt qs r) (gather_lt qs c)]
  rfl

end Blocks

theorem superopOf_congr {d : Nat} {k k' : Entries}
    (h : forall i j, i < d -> j < d -> k i j = k' i j) :
    Kernel.IsSuperop d [k'] (Kernel.superopOf d k) := by
  intro i j a b hi hj ha hb
  rw [Kernel.superopOf_apply k hi ha, List.map_singleton, List.sum_singleton, h j b hj hb,
    h i a hi ha]

namespace Machine

theorem Holds.unique {σ : Entries} {m₁ m₂ : Machine ℝ} (h₁ : m.Holds n σ m₁)
    (h₂ : m.Holds n σ m₂) : m₁ = m₂ := by
  have hdata : m₁.store.data = m₂.store.data := by
    apply Buffer.ext_entry (h₁.full.trans h₂.full.symm)
    intro x hx
    rw [h₁.full] at hx
    rcases eq_cell hx with ⟨r, c, hr, hc, rfl⟩
    exact (h₁.entries r c hr hc).trans (h₂.entries r c hr hc).symm
  rw [h₁.rest, h₂.rest, hdata]

theorem Lists.gives_onData {ks : List Entries} {u : Entries}
    {kernel : Buffer ℝ -> Outcome (Buffer ℝ)} (h : m.Lists n qs) (hnodup : qs.Nodup)
    (hkernel : Kernel.ActsAs n qs u kernel) (hu : Kernel.IsSuperop (twoPow qs.length) ks u) :
    Gives (m.Holds n (krausSum qs ks (m.store.data.toEntries n))) (m.onData kernel) := by
  refine ⟨_, onData_of_eq_ok (hkernel m.store.data h.full), rfl, Buffer.size_tabulate _ _, ?_⟩
  intro r c hr hc
  change (Buffer.tabulate _ _).toEntries n r c = _
  rw [Buffer.toEntries_tabulate _ hr hc, act_bothSides hnodup h.inside hr hc,
    ← sum_act_eq_krausSum]
  refine Finset.sum_congr rfl fun j hj => Finset.sum_congr rfl fun i hi => ?_
  rw [hu _ _ i j (gather_lt qs r) (gather_lt qs c) (Finset.mem_range.mp hi)
    (Finset.mem_range.mp hj)]
  rfl

/-!
## Operators
-/

theorem Lists.gives_applyKraus (h : m.Lists n qs) (hnodup : qs.Nodup)
    (hfits : twoPow (4 * qs.length) * 16 < bufferLimit) {operators : List (Mat ℝ)}
    (hne : operators ≠ [])
    (hshapes : forall u, u ∈ operators -> u.rows = twoPow qs.length ∧ u.cols = twoPow qs.length) :
    Gives (m.Holds n (krausSum qs (operators.map Mat.entry) (m.store.data.toEntries n)))
      (m.applyKraus qs operators) := by
  have hfew := lt_of_fits hfits
  rcases exists_krausMap hfew hne hshapes with ⟨map, hmap⟩
  rcases isSuperop_krausMap hne hshapes hmap with ⟨hrows, hcols, hsuperop⟩
  rw [← twoPow_two_mul] at hrows hcols hsuperop
  have hacts : Kernel.ActsAs n qs _ (Kernel.dense (bothSides n qs) map.columns) :=
    Kernel.actsAs_dense h.small hnodup h.inside (by omega)
      (by rw [Mat.size_columns, hrows, hcols])
  rcases h.gives_onData hnodup hacts hsuperop with ⟨m', hdata, hholds⟩
  have happly : m.applySuperop qs map = _ :=
    applySuperop_of_reaches h.reaches h.store_lt h.lt_wordBits (by unfold wordBits; omega)
      hrows hcols
  rw [h.qubits] at happly
  exact ⟨m', applyKraus_eq_ok_iff.mpr ⟨⟨hne, by unfold wordBits; omega, hshapes⟩,
    map, hmap, happly.trans hdata⟩, hholds⟩

theorem Lists.gives_applyDiagonal (h : m.Lists n qs) (hnodup : qs.Nodup) {entries : Buffer ℝ}
    (hsize : entries.size = twoPow qs.length) {k : Entries}
    (hk : forall i j, i < twoPow qs.length -> j < twoPow qs.length ->
      k i j = if i = j then entries.entry i else 0) :
    Gives (m.Holds n (krausSum qs [k] (m.store.data.toEntries n)))
      (m.applyDiagonal qs entries) := by
  have hlen := length_le_of_nodup hnodup h.inside
  have hsmall := h.small
  rw [applyDiagonal_of_reaches h.reaches h.store_lt h.lt_wordBits (by omega) hsize, h.qubits]
  apply h.gives_onData hnodup (Kernel.actsAs_diagonalUnitary h.small hnodup h.inside hsize)
  apply superopOf_congr
  intro i j hi hj
  rw [hk i j hi hj]
  exact if_congr eq_comm rfl rfl

theorem Lists.gives_applyMatrix_row (h : m.Lists n qs) (hnodup : qs.Nodup) {row : Mat ℝ}
    (hrows : row.rows = 1) (hcols : row.cols = twoPow qs.length) {k : Entries}
    (hk : forall i j, i < twoPow qs.length -> j < twoPow qs.length ->
      k i j = if i = j then row.entry 0 i else 0) :
    Gives (m.Holds n (krausSum qs [k] (m.store.data.toEntries n))) (m.applyMatrix qs row) := by
  have hlen := length_le_of_nodup hnodup h.inside
  have hsmall := h.small
  have hsize : row.entries.size = twoPow qs.length := by
    rw [row.size_entries, hrows, hcols, Nat.one_mul]
  unfold applyMatrix
  rw [checkedShift_of_lt (by omega), ok_bind, if_pos hrows]
  apply h.gives_applyDiagonal hnodup hsize
  intro i j hi hj
  rw [hk i j hi hj]
  unfold Mat.entry
  rw [Nat.zero_mul, Nat.zero_add]

theorem Lists.gives_applyMatrix (h : m.Lists n qs) (hnodup : qs.Nodup) {u : Mat ℝ}
    (hrows : u.rows = twoPow qs.length) (hcols : u.cols = twoPow qs.length) :
    Gives (m.Holds n (krausSum qs [u.entry] (m.store.data.toEntries n)))
      (m.applyMatrix qs u) := by
  have hlen := length_le_of_nodup hnodup h.inside
  have hsmall := h.small
  by_cases hone : u.rows = 1
  · -- On no qubits the matrix is one number, and a diagonal.
    apply h.gives_applyMatrix_row hnodup hone hcols
    intro i j hi hj
    rw [← hrows, hone] at hi hj
    rw [Nat.lt_one_iff.mp hi, Nat.lt_one_iff.mp hj, if_pos rfl]
  · rw [applyMatrix_of_reaches hone h.reaches h.store_lt h.lt_wordBits (by omega) hrows hcols,
      h.qubits]
    apply h.gives_onData hnodup (Kernel.actsAs_unitary h.small hnodup h.inside
      (by rw [Mat.size_columns, hrows, hcols]))
    apply superopOf_congr
    intro i j hi hj
    have hentry := Mat.entry_columns (u := u) (hrows ▸ hi) (hcols ▸ hj)
    rw [hrows] at hentry
    exact hentry

/-- Kraus matrices on distinct qubits of a register leave `Σ K ρ K†`.  A single one leaves
the same as a matrix, and a row as the square matrix with the row on its diagonal. -/
theorem computes_channel (h : m.Lists n qs) (hnodup : qs.Nodup) :
    (twoPow (4 * qs.length) * 16 < bufferLimit -> forall operators : List (Mat ℝ),
      operators ≠ [] ->
      (forall u, u ∈ operators -> u.rows = twoPow qs.length ∧ u.cols = twoPow qs.length) ->
      Gives (m.Holds n (krausSum qs (operators.map Mat.entry) (m.store.data.toEntries n)))
        (m.applyKraus qs operators)) ∧
    (forall u : Mat ℝ, u.rows = twoPow qs.length -> u.cols = twoPow qs.length ->
      Gives (m.Holds n (krausSum qs [u.entry] (m.store.data.toEntries n)))
          (m.applyMatrix qs u) ∧
        (twoPow (4 * qs.length) * 16 < bufferLimit ->
          m.applyMatrix qs u = m.applyKraus qs [u])) ∧
    forall row : Mat ℝ, row.rows = 1 -> row.cols = twoPow qs.length ->
      exists m', m.applyMatrix qs row = .ok m' ∧
        m.applyMatrix qs (Mat.ofFn row.cols row.cols fun i j =>
          if i = j then row.entry 0 i else 0) = .ok m' := by
  refine ⟨?_, ?_, ?_⟩
  · intro hfits operators hne hshapes
    exact h.gives_applyKraus hnodup hfits hne hshapes
  · intro u hrows hcols
    have hmatrix := h.gives_applyMatrix hnodup hrows hcols
    refine ⟨hmatrix, ?_⟩
    intro hfits
    rcases hmatrix with ⟨m', hm', hholds⟩
    rcases h.gives_applyKraus hnodup hfits (List.cons_ne_nil u []) (by
      intro v hv
      rw [List.mem_singleton.mp hv]
      exact ⟨hrows, hcols⟩) with ⟨m'', hm'', hholds'⟩
    rw [hm', hm'', hholds.unique hholds']
  · intro row hrows hcols
    rcases h.gives_applyMatrix (u := Mat.ofFn row.cols row.cols fun i j =>
      if i = j then row.entry 0 i else 0) hnodup hcols hcols with ⟨m', hm', hholds⟩
    have hentries : forall i j, i < twoPow qs.length -> j < twoPow qs.length ->
        (Mat.ofFn row.cols row.cols fun i j => if i = j then row.entry 0 i else 0).entry i j =
          if i = j then row.entry 0 i else 0 := by
      intro i j hi hj
      exact Mat.entry_ofFn _ (hcols ▸ hi) (hcols ▸ hj)
    rcases h.gives_applyMatrix_row hnodup hrows hcols hentries with ⟨m'', hm'', hholds'⟩
    rw [hholds.unique hholds'] at hm'
    exact ⟨m'', hm'', hm'⟩

theorem computes_channel_raise :
    exists m', (ofStore ⟨2, 0, Buffer.tabulate 16 fun x => if x = 5 then 1 else 0⟩).applyKraus
        [1, 0] [Mat.ofFn 4 4 fun i j => if i = 3 ∧ j = 2 then 1 else 0] = .ok m' ∧
      m'.store.data.toEntries 2 3 3 = 1 := by
  have hlists : (ofStore ⟨2, 0, Buffer.tabulate 16 fun x =>
      if x = 5 then (1 : Amplitude ℝ) else 0⟩).Lists 2 [1, 0] :=
    ⟨⟨⟨rfl, rfl, Or.inl (Buffer.size_tabulate _ _)⟩, Buffer.size_tabulate _ _, by decide⟩,
      by decide⟩
  rcases (computes_channel hlists (by decide)).1 (by decide)
    [Mat.ofFn 4 4 fun i j => if i = 3 ∧ j = 2 then 1 else 0] (List.cons_ne_nil _ _) (by
      intro u hu
      rw [List.mem_singleton.mp hu]
      exact ⟨rfl, rfl⟩) with ⟨m', hm', hholds⟩
  refine ⟨m', hm', ?_⟩
  rw [hholds.entries 3 3 (by decide) (by decide)]
  have hread : forall x y, x < twoPow 2 -> y < twoPow 2 ->
      (Buffer.tabulate 16 fun x => if x = 5 then (1 : Amplitude ℝ) else 0).toEntries 2 x y =
        if cell 2 x y = 5 then 1 else 0 := by
    intro x y hx hy
    have hcell : cell 2 x y < 16 := cell_lt hx hy
    exact Buffer.entry_tabulate_of_lt _ hcell
  have hraise : forall j, j ∈ Finset.range (twoPow [1, 0].length) ->
      (Mat.ofFn 4 4 fun i j => if i = 3 ∧ j = 2 then (1 : Amplitude ℝ) else 0).entry
        (gather [1, 0] 3) j = if j = 2 then 1 else 0 := by
    intro j hj
    have hlt : j < 4 := Finset.mem_range.mp hj
    rw [Mat.entry_ofFn _ (show gather [1, 0] 3 < 4 by decide) hlt]
    exact if_congr (and_iff_right (by decide)) rfl rfl
  have htwo : 2 ∈ Finset.range (twoPow [1, 0].length) := by decide
  -- The operator has one entry, in column two.
  unfold krausSum
  rw [List.map_singleton, List.map_singleton, List.sum_singleton, Finset.sum_eq_single 2,
    Finset.sum_eq_single 2]
  · rw [hraise 2 htwo]
    change _ * (Buffer.tabulate 16 fun x => if x = 5 then (1 : Amplitude ℝ) else 0).toEntries 2
      (overwrite [1, 0] 3 2) (overwrite [1, 0] 3 2) * _ = _
    rw [hread _ _ (by decide) (by decide), if_pos rfl, if_pos (by decide), Amplitude.conj_one,
      one_mul, one_mul]
  · intro b hb hne
    rw [hraise b hb, if_neg hne, Amplitude.conj_zero, mul_zero]
  · exact fun h => absurd htwo h
  · intro a ha hne
    rw [hraise a ha, if_neg hne]
    simp only [zero_mul, Finset.sum_const_zero]
  · exact fun h => absurd htwo h

end Machine

end MixedState
