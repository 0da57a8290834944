import MixedState.Proofs.Basis.Enumeration
import MixedState.Proofs.InPlace.Kernel

/-!
# Dense matrices in place

The dense kernel goes over the blocks of its positions.  Of each block it takes all entries
out before it writes the products with the matrix back, and no other block has a place in
common with it.  So each entry of the buffer is read once, and the one that is written there
is made of old ones.
-/

namespace MixedState

open MixedState.Basis

namespace Kernel
namespace InPlace

variable {R : Type} [Scalar R] {b : Buffer R}

/-!
## One block
-/

/-- The values of later places stand, so a place that is written twice has the last. -/
theorem writeBack_eq_ok {ps : List (Nat × Nat)} {value : Nat -> Outcome (Amplitude R)}
    {g : Nat -> Amplitude R} (hlt : forall p, p ∈ ps -> p.1 < b.size)
    (hvalue : forall p, p ∈ ps -> value p.2 = .ok (g p.1)) :
    ps.foldlM (fun b (p : Nat × Nat) => do write b p.1 (← value p.2)) b =
      .ok (Buffer.tabulate b.size fun x => if x ∈ ps.map Prod.fst then g x else b.entry x) := by
  induction ps generalizing b with
  | nil =>
      simp only [List.map_nil, List.not_mem_nil, if_false, Buffer.tabulate_entry]
      rfl
  | cons p rest ih =>
      rcases List.forall_mem_cons.mp hlt with ⟨hp, hrest⟩
      rcases List.forall_mem_cons.mp hvalue with ⟨hvalue, hvalues⟩
      rw [List.foldlM_cons, hvalue, ok_bind, write_eq_ok hp, ok_bind,
        ih (by simpa only [Buffer.size_tabulate] using hrest) hvalues, Buffer.size_tabulate]
      congr 1
      apply Buffer.tabulate_congr
      intro x hx
      rw [Buffer.entry_tabulate_of_lt _ hx, List.map_cons]
      by_cases hmem : x ∈ rest.map Prod.fst
      · rw [if_pos hmem, if_pos (List.mem_cons_of_mem _ hmem)]
      · rw [if_neg hmem]
        by_cases hxp : x = p.1
        · rw [if_pos hxp, if_pos (hxp ▸ List.mem_cons_self), hxp]
        · rw [if_neg hxp, if_neg fun h => (List.mem_cons.mp h).elim hxp hmem]

theorem takeOut_go_eq_ok {places : List Nat} (taken : Buffer R) (hnodup : places.Nodup)
    (hlt : forall p, p ∈ places -> p < b.size) :
    places.foldlM (fun (s : Buffer R × Buffer R) place => do
        let a ← read s.2 place
        return (s.1.push a, ← write s.2 place 0)) (taken, b) =
      .ok (taken ++ (places.map b.entry).toArray,
        Buffer.tabulate b.size fun x => if x ∈ places then 0 else b.entry x) := by
  induction places generalizing taken b with
  | nil =>
      simp only [List.map_nil, List.not_mem_nil, if_false, Buffer.tabulate_entry,
        Array.append_empty]
      rfl
  | cons p rest ih =>
      rcases List.forall_mem_cons.mp hlt with ⟨hp, hrest⟩
      rcases List.nodup_cons.mp hnodup with ⟨hnot, hnodup⟩
      have hread : rest.map (Buffer.tabulate b.size fun x => if x = p then 0 else b.entry x).entry =
          rest.map b.entry := by
        apply List.map_congr_left
        intro q hq
        have hne : ¬q = p := by
          rintro rfl
          exact hnot hq
        rw [Buffer.entry_tabulate_of_lt _ (hrest q hq), if_neg hne]
      rw [List.foldlM_cons, read_eq_ok hp, ok_bind, write_eq_ok hp, ok_bind]
      change List.foldlM _ (taken.push (b.entry p), _) rest = _
      rw [ih _ hnodup (by simpa only [Buffer.size_tabulate] using hrest), hread,
        Buffer.size_tabulate]
      congr 2
      · simp
      · apply Buffer.tabulate_congr
        intro x hx
        rw [Buffer.entry_tabulate_of_lt _ hx]
        by_cases hxp : x = p
        · simp [hxp]
        · simp [hxp]

theorem takeOut_eq_ok {places : List Nat} (hnodup : places.Nodup)
    (hlt : forall p, p ∈ places -> p < b.size) :
    takeOut places b = .ok ((places.map b.entry).toArray,
      Buffer.tabulate b.size fun x => if x ∈ places then 0 else b.entry x) := by
  have h := takeOut_go_eq_ok #[] hnodup hlt
  rw [Array.empty_append] at h
  exact h

theorem rowTimes_eq_ok {columns taken : Buffer R} {i : Nat} (hi : i < taken.size)
    (hcolumns : taken.size * taken.size ≤ columns.size) :
    rowTimes columns taken i = .ok (sumBelow taken.size fun j =>
      columns.entry (i + taken.size * j) * taken.entry j) := by
  have hfold : forall k, k ≤ taken.size -> (List.range k).foldlM (fun sum j => do
      return sum + (← read columns (i + taken.size * j)) * taken.entry j) 0 =
      (.ok (sumBelow k fun j => columns.entry (i + taken.size * j) * taken.entry j) :
        Outcome (Amplitude R)) := by
    intro k hk
    induction k with
    | zero =>
        rfl
    | succ k ih =>
        have hrow : taken.size * (k + 1) ≤ taken.size * taken.size := Nat.mul_le_mul_left _ hk
        rw [Nat.mul_succ] at hrow
        rw [List.range_succ, List.foldlM_append, ih (by omega), ok_bind, List.foldlM_cons,
          read_eq_ok (by omega)]
        rfl
  exact hfold taken.size (Nat.le_refl _)

section Blocks

variable {n k : Nat} {qs : List Nat} {columns : Buffer R} (hnodup : qs.Nodup)
  (hqs : forall q, q ∈ qs -> q < n) (hn : n ≤ 63)

include hnodup hqs hn

theorem rowTimes_block (hk : k < twoPow (n - qs.length))
    (hcolumns : twoPow qs.length * twoPow qs.length ≤ columns.size) {p : Nat × Nat}
    (hp : p ∈ (blockPlaces qs k).zipIdx) :
    rowTimes columns ((blockPlaces qs k).map b.entry).toArray p.2 =
      .ok (productAt qs columns b p.1) := by
  have hsize : ((blockPlaces qs k).map b.entry).toArray.size = twoPow qs.length := by
    rw [List.size_toArray, List.length_map, length_blockPlaces]
  rcases spells_of_mem_zipIdx hnodup hqs hn hk hp with ⟨hlt, hplace⟩
  rw [rowTimes_eq_ok (by rw [hsize]; exact hlt) (by rw [hsize]; exact hcolumns), hsize]
  congr 1
  apply sumBelow_congr
  intro j hj
  have htaken : Buffer.entry ((blockPlaces qs k).map b.entry).toArray j =
      b.entry (joined n qs j k) := by
    unfold Buffer.entry
    rw [blockPlaces_eq hnodup hqs hn hk]
    simp [Array.getD_eq_getD_getElem?, List.getElem?_range hj]
  rw [htaken, hplace, gather_joined hnodup hqs hlt, overwrite_joined hnodup hqs hk]

theorem replaceBlock_eq_ok (hk : k < twoPow (n - qs.length)) (hb : b.size = twoPow n)
    (hcolumns : twoPow qs.length * twoPow qs.length ≤ columns.size) :
    replaceBlock columns (blockPlaces qs k) b = .ok (Buffer.tabulate (twoPow n) fun x =>
      if gather (unlisted n qs) x = k then productAt qs columns b x else b.entry x) := by
  have hmem : forall x, x ∈ blockPlaces qs k ↔ x < twoPow n ∧ gather (unlisted n qs) x = k :=
    fun x => mem_blockPlaces_iff hnodup hqs hn hk
  have hlt : forall x, x ∈ blockPlaces qs k -> x < b.size := by
    intro x hx
    rw [hb]
    exact ((hmem x).mp hx).1
  have hwrite : forall p, p ∈ (blockPlaces qs k).zipIdx -> p.1 < b.size := fun p hp =>
    hlt p.1 (List.mem_of_getElem? (List.mem_zipIdx_iff_getElem?.mp hp))
  unfold replaceBlock
  rw [takeOut_eq_ok (nodup_blockPlaces hnodup hqs hn hk) hlt, ok_bind]
  dsimp only
  rw [writeBack_eq_ok (by rw [Buffer.size_tabulate]; exact hwrite)
    (fun p hp => rowTimes_block hnodup hqs hn hk hcolumns hp), Buffer.size_tabulate, hb]
  congr 1
  apply Buffer.tabulate_congr
  intro x hx
  rw [List.zipIdx_map_fst, Buffer.entry_tabulate_of_lt _ hx]
  by_cases hblock : gather (unlisted n qs) x = k
  · rw [if_pos hblock, if_pos ((hmem x).mpr ⟨hx, hblock⟩)]
  · have hnot : x ∉ blockPlaces qs k := fun h => hblock ((hmem x).mp h).2
    rw [if_neg hblock, if_neg hnot, if_neg hnot]

/-!
## All blocks
-/

theorem dense_eq_sweep (hb : b.size = twoPow n) :
    dense qs columns b = (do
      allocate 16 (twoPow qs.length)
      sweep (twoPow (n - qs.length)) (fun k => replaceBlock columns (blockPlaces qs k)) b) := by
  have hlen : qs.length ≤ n := length_le_of_nodup hnodup hqs
  have hword : wordBits = 64 := rfl
  have hblocks : b.size / twoPow qs.length = twoPow (n - qs.length) := by
    rw [hb]
    exact Nat.pow_div hlen (by decide)
  unfold dense
  rw [checkedShift_of_lt (by omega), ok_bind, hblocks]
  by_cases hroom : twoPow qs.length * 16 < bufferLimit
  · have hstep : denseBlock qs (sorted qs) columns =
        fun k => replaceBlock columns (blockPlaces qs k) := by
      funext k b
      unfold denseBlock
      rw [block_register_eq hnodup hqs hn, allocate_of_lt (by omega)]
      rfl
    rw [hstep]
  · rw [allocate_of_le (Nat.le_of_not_lt hroom)]
    rfl

theorem sweeps_dense (hfew : qs.length < 59)
    (hcolumns : twoPow qs.length * twoPow qs.length ≤ columns.size) :
    Sweeps (twoPow n) (dense qs columns) (Kernel.dense qs columns) := by
  intro b hb
  have hword : wordBits = 64 := rfl
  have hsweep := sweep_eq_ok (k := twoPow (n - qs.length))
    (fun k => replaceBlock columns (blockPlaces qs k)) (gather (unlisted n qs))
    (productAt qs columns) ?_
    (fun k b hk hb => replaceBlock_eq_ok hnodup hqs hn hk hb hcolumns) hb
  · refine ⟨_, Kernel.dense_eq_productAt hnodup hqs (by omega) hfew hb hcolumns,
      (Buffer.size_tabulate _ _).trans hb, ?_⟩
    rw [dense_eq_sweep hnodup hqs hn hb, allocate_sixteen_of_lt hfew, ok_bind, hsweep, hb]
    congr 1
    apply Buffer.tabulate_congr
    intro x _
    exact if_pos (gather_unlisted_lt hnodup hqs x)
  · -- An entry of the product is made of entries of the same block.
    intro b₁ b₂ x hx hsame
    apply sumBelow_congr
    intro j _
    congr 1
    apply hsame _ (overwrite_lt j hqs hx)
    exact gather_congr fun q hq =>
      testBit_overwrite_of_not_mem x j (mem_unlisted.mp hq).2

theorem productAt_blockIndex {i : Nat} (hk : k < twoPow (n - qs.length))
    (hi : i < twoPow qs.length) :
    productAt qs columns b (blockIndex qs (sorted qs) k i) =
      sumBelow (twoPow qs.length) fun j =>
        columns.entry (i + twoPow qs.length * j) * b.entry (blockIndex qs (sorted qs) k j) := by
  unfold productAt
  apply sumBelow_congr
  intro j _
  rw [blockIndex_eq_joined hnodup hqs hn hk, blockIndex_eq_joined hnodup hqs hn hk,
    gather_joined hnodup hqs hi, overwrite_joined hnodup hqs hk]

/-- Blocks part the indices of a buffer among them.  An entry of a block spells its place at the
listed bits, in their order, and the number of the block at the other bits, from low to high;
and each index is the entry of one block at one place.  So the dense kernel, which takes out
and writes back one block after the other, comes to each entry of the buffer once, and leaves
there a row of the matrix times the old entries of the block.  A list of places takes eight
bytes for each, so that none fits in memory for sixty bits, and the entries taken out take
sixteen. -/
theorem blocks_enumerate :
    Set.BijOn (fun p : Nat × Nat => blockIndex qs (sorted qs) p.1 p.2)
      {p | p.1 < twoPow (n - qs.length) ∧ p.2 < twoPow qs.length} {x | x < twoPow n} ∧
    (forall k, k < twoPow (n - qs.length) ->
      (qs.length < 60 -> Checked.block qs (sorted qs) k =
        .ok ((List.range (twoPow qs.length)).map (blockIndex qs (sorted qs) k))) ∧
      (60 ≤ qs.length -> Checked.block qs (sorted qs) k = crash) ∧
      forall i, i < twoPow qs.length ->
        Checked.gather qs (blockIndex qs (sorted qs) k i) = .ok i ∧
          gather (unlisted n qs) (blockIndex qs (sorted qs) k i) = k) ∧
    ((List.range (twoPow (n - qs.length))).flatMap (blockPlaces qs)).Perm
      (List.range (twoPow n)) ∧
    forall columns b : Buffer R, b.size = twoPow n ->
      dense qs columns b = (do
        allocate 16 (twoPow qs.length)
        sweep (twoPow (n - qs.length)) (fun k => replaceBlock columns (blockPlaces qs k)) b) ∧
      (qs.length < 59 -> twoPow qs.length * twoPow qs.length ≤ columns.size ->
        exists b', dense qs columns b = .ok b' ∧ Kernel.dense qs columns b = .ok b' ∧
          b'.size = twoPow n ∧
          forall k i, k < twoPow (n - qs.length) -> i < twoPow qs.length ->
            b'.entry (blockIndex qs (sorted qs) k i) = sumBelow (twoPow qs.length) fun j =>
              columns.entry (i + twoPow qs.length * j) *
                b.entry (blockIndex qs (sorted qs) k j)) := by
  refine ⟨(bijOn_joined hnodup hqs).congr fun p hp =>
    (blockIndex_eq_joined hnodup hqs hn hp.1 p.2).symm, ?_,
    perm_flatMap_blockPlaces hnodup hqs hn, ?_⟩
  · intro k hk
    have hblock := block_register_eq hnodup hqs hn k
    refine ⟨fun hfew => ?_, fun hmany => ?_, ?_⟩
    · rw [hblock, allocate_eight_of_lt hfew]
      rfl
    · rw [hblock, allocate_eight_of_le hmany]
      rfl
    intro i hi
    refine ⟨checkedGather_blockIndex hnodup hqs hn hk hi, ?_⟩
    rw [blockIndex_eq_joined hnodup hqs hn hk]
    exact gather_unlisted_joined hnodup hqs hk i
  · intro columns b hb
    refine ⟨dense_eq_sweep hnodup hqs hn hb, ?_⟩
    intro hfew hcolumns
    have hword : wordBits = 64 := rfl
    have hkernel : Kernel.dense qs columns b =
        .ok (Buffer.tabulate b.size (productAt qs columns b)) :=
      Kernel.dense_eq_productAt hnodup hqs (by omega) hfew hb hcolumns
    refine ⟨_, ((sweeps_dense hnodup hqs hn hfew hcolumns).eq hb).trans hkernel, hkernel,
      (Buffer.size_tabulate _ _).trans hb, ?_⟩
    intro k i hk hi
    have hlt : blockIndex qs (sorted qs) k i < b.size := by
      rw [hb, blockIndex_eq_joined hnodup hqs hn hk]
      exact (joins_joined hnodup hqs i k).lt
    rw [Buffer.entry_tabulate_of_lt _ hlt, productAt_blockIndex hnodup hqs hn hk hi]

end Blocks

/-- Of three bits, the blocks of the last and the first: the second block lists its places with
the last bit counted first, and a matrix that reverses the four numbers reverses its entries. -/
theorem blocks_enumerate_reversed :
    let b : Buffer ℝ := Buffer.tabulate 8 fun x => ⟨x, 0⟩
    let columns : Buffer ℝ := Buffer.tabulate 16 fun i => if i % 4 + i / 4 = 3 then 1 else 0
    Checked.block [2, 0] (sorted [2, 0]) 1 = .ok [2, 6, 3, 7] ∧
      Checked.gather [2, 0] 6 = .ok 1 ∧ gather [1] 6 = 1 ∧
      exists b', dense [2, 0] columns b = .ok b' ∧ b'.entry 6 = ⟨3, 0⟩ := by
  intro b columns
  have hsorted : sorted [2, 0] = [0, 2] := by cbv
  have hnodup : ([2, 0] : List Nat).Nodup := by decide
  rcases blocks_enumerate (R := ℝ) (n := 3) hnodup (by decide) (by decide) with
    ⟨_, hblocks, _, hdense⟩
  rcases hblocks 1 (by decide) with ⟨hblock, _, hspelled⟩
  have hblock := hblock (by decide)
  rcases hspelled 1 (by decide) with ⟨hlisted, hother⟩
  rcases (hdense columns b (Buffer.size_tabulate _ _)).2 (by decide) (by decide) with
    ⟨b', hb', _, _, hentry⟩
  have hreversed : forall j, j ∈ Finset.range 4 ->
      columns.entry (1 + 4 * j) * b.entry (blockIndex [2, 0] [0, 2] 1 j) =
        if j = 2 then b.entry (blockIndex [2, 0] [0, 2] 1 j) else 0 := by
    intro j hj
    have hj := Finset.mem_range.mp hj
    have hcolumn : columns.entry (1 + 4 * j) = if j = 2 then 1 else 0 := by
      rw [Buffer.entry_tabulate_of_lt _ (by omega : 1 + 4 * j < 16)]
      exact if_congr (by omega) rfl rfl
    rw [hcolumn, ite_mul, one_mul, zero_mul]
  rw [hsorted] at hblock hlisted hother hentry ⊢
  refine ⟨hblock, hlisted, hother, b', hb', (hentry 1 1 (by decide) (by decide)).trans ?_⟩
  change sumBelow 4 _ = _
  rw [sumBelow_eq_sum]
  refine (Finset.sum_congr rfl hreversed).trans ((sum_range_single (by decide) _).trans ?_)
  change b.entry 3 = _
  rw [Buffer.entry_tabulate_of_lt _ (by decide)]
  ext
  · norm_num
  · rfl

/-- The places of sixty bits do not fit in memory. -/
theorem block_of_sixty :
    (List.range 60).Nodup ∧ (forall q, q ∈ List.range 60 -> q < 60) ∧ 60 ≤ 63 ∧
      0 < twoPow (60 - (List.range 60).length) ∧
      Checked.block (List.range 60) (sorted (List.range 60)) 0 = crash := by
  have hbelow : forall q, q ∈ List.range 60 -> q < 60 := fun q hq => List.mem_range.mp hq
  refine ⟨List.nodup_range, hbelow, by decide, by decide, ?_⟩
  rw [block_register_eq List.nodup_range hbelow (by decide), List.length_range,
    allocate_eight_of_le (by decide)]
  rfl

end InPlace
end Kernel
end MixedState
