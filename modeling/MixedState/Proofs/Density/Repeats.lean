import MixedState.Proofs.Basis.Repeats
import MixedState.Proofs.Density.Kraus
import MixedState.Proofs.Density.Trace

/-!
# Dense operators on qubits that are listed twice

A dense pass numbers the blocks of its positions by inserting one zero for each, and reads
an index of a block at its least spelling.  Where positions repeat there are more
insertions than bits: some blocks are never visited and keep their entries, and in those
that are visited the matrix is read in a part of its rows and columns only.
-/

namespace MixedState

open MixedState.Basis

/-- Whether a dense pass on a buffer of `size` entries comes to the block of `x`. -/
def Kernel.visits (size : Nat) (ps : List Nat) (x : Nat) : Bool :=
  isBlockStart (sorted ps) (size / twoPow ps.length) (lowest ps x)

/-- The matrix reads an index at its least spelling, and writes it at the number that is
gathered from it. -/
noncomputable def merge (qs : List Nat) (u : Entries) : Entries :=
  fun r a => if lowest qs a = lowest qs r then u (gather qs r) (leastSpelling qs a) else 0

noncomputable def rowPass (n : Nat) (qs : List Nat) (u ρ : Entries) : Entries :=
  fun r c =>
    if Kernel.visits (twoPow (2 * n)) qs (cell n r c) then
      ∑ a ∈ Finset.range (twoPow n), merge qs u r a * ρ a c
    else ρ r c

noncomputable def columnPass (n : Nat) (qs : List Nat) (u ρ : Entries) : Entries :=
  fun r c =>
    if Kernel.visits (twoPow (2 * n)) (sideBits true n qs) (cell n r c) then
      ∑ b ∈ Finset.range (twoPow n), merge qs u c b * ρ r b
    else ρ r c

noncomputable def channelPass (n : Nat) (qs : List Nat) (ks : List Entries) (ρ : Entries) :
    Entries :=
  fun r c =>
    if Kernel.visits (twoPow (2 * n)) (bothSides n qs) (cell n r c) then
      channel (twoPow n) (ks.map (merge qs)) ρ r c
    else ρ r c

def Kernel.Gives (n : Nat) (f : Entries -> Entries)
    (kernel : Buffer ℝ -> Outcome (Buffer ℝ)) : Prop :=
  forall b : Buffer ℝ, b.size = twoPow (2 * n) ->
    exists b', kernel b = .ok b' ∧ b'.size = twoPow (2 * n) ∧
      forall r c, r < twoPow n -> c < twoPow n ->
        b'.toEntries n r c = f (b.toEntries n) r c

variable {n : Nat} {ps qs : List Nat} {u m ρ : Entries} {ks : List Entries} {b : Buffer ℝ}

theorem merge_congr {v : Entries}
    (h : forall i j, i < twoPow qs.length -> j < twoPow qs.length -> u i j = v i j) :
    merge qs u = merge qs v := by
  funext r a
  unfold merge
  rw [h _ _ (gather_lt qs r) (leastSpelling_lt qs a)]

/-!
## One pass
-/

namespace Kernel

theorem visits_congr {size x y : Nat} (h : lowest ps x = lowest ps y) :
    visits size ps x = visits size ps y := by
  unfold visits
  rw [h]

theorem getD_readOffsets {j : Nat} (hj : j < twoPow ps.length) :
    (readOffsets ps).getD j none =
      if isLeastSpelling ps j then some (scatter ps j) else none := by
  simp [readOffsets, Array.getD_eq_getD_getElem?, hj]

theorem product_eq_sum_merge {x : Nat} (hps : forall p, p ∈ ps -> p < n) (hx : x < twoPow n)
    (columns : Buffer ℝ) :
    product b (readOffsets ps) columns (lowest ps x) (gather ps x) =
      ∑ a ∈ Finset.range (twoPow n),
        merge ps (ofColumns (twoPow ps.length) columns) x a * b.entry a := by
  have hread : forall j, j ∈ Finset.range (twoPow ps.length) ->
      columns.entry (gather ps x + twoPow ps.length * j) *
          readAt b (lowest ps x) ((readOffsets ps).getD j none) =
        if isLeastSpelling ps j = true then
          ofColumns (twoPow ps.length) columns (gather ps x) j * b.entry (overwrite ps x j)
        else 0 := by
    intro j hj
    rw [getD_readOffsets (Finset.mem_range.mp hj)]
    split
    · rfl
    · exact mul_zero _
  unfold product
  rw [readOffsets_size, sumBelow_eq_sum, Finset.sum_congr rfl hread,
    sum_leastSpelling hps hx fun j a =>
      ofColumns (twoPow ps.length) columns (gather ps x) j * b.entry a]
  apply Finset.sum_congr rfl
  intro a _
  unfold merge
  rw [ite_mul, zero_mul]

theorem dense_eq_merge {columns : Buffer ℝ} (hps : forall p, p ∈ ps -> p < n)
    (hn : n ≤ wordBits) (hb : b.size = twoPow n) (hlen : ps.length < 59)
    (hsize : twoPow ps.length * twoPow ps.length ≤ columns.size) :
    dense ps columns b = .ok (Buffer.tabulate (twoPow n) fun x =>
      if visits (twoPow n) ps x then
        ∑ a ∈ Finset.range (twoPow n),
          merge ps (ofColumns (twoPow ps.length) columns) x a * b.entry a
      else b.entry x) := by
  have hword : ps.length < wordBits := by
    unfold wordBits
    omega
  unfold dense
  rw [checkedShift_of_lt hword, ok_bind, allocate_sixteen_of_lt hlen, ok_bind]
  dsimp only
  by_cases hblocks : b.size / twoPow ps.length = 0
  · -- There are more positions than bits, and no block is visited.
    have hnone : forall x, visits (twoPow n) ps x = false := by
      intro x
      unfold visits isBlockStart
      rw [← hb, hblocks]
      simp
    rw [if_pos hblocks]
    congr 1
    apply Buffer.ext_entry
    · rw [hb, Buffer.size_tabulate]
    · intro x hx
      rw [Buffer.entry_tabulate_of_lt _ (by rw [← hb]; exact hx), hnone,
        if_neg Bool.false_ne_true]
  · have hposition : (ps.all fun p => p < wordBits && twoPow p < b.size) = true := by
      rw [List.all_eq_true]
      intro p hp
      have hlt := hps p hp
      have hpow : twoPow p < b.size := by
        rw [hb]
        exact twoPow_lt_twoPow hlt
      rw [decide_eq_true (show p < wordBits by omega), decide_eq_true hpow]
      rfl
    rw [if_neg hblocks, orCrash_of_true hposition, ok_bind,
      orCrash_of_true (decide_eq_true hsize), ok_bind]
    congr 1
    rw [hb]
    apply Buffer.tabulate_congr
    intro x hx
    rw [← product_eq_sum_merge hps hx]
    rfl

theorem dense_of_le {columns : Buffer ℝ} (hlen : 59 ≤ ps.length) :
    dense ps columns b = crash := by
  unfold dense
  by_cases hword : ps.length < wordBits
  · rw [checkedShift_of_lt hword, ok_bind, allocate_sixteen_of_le hlen]
    rfl
  · rw [checkedShift_of_le (Nat.le_of_not_lt hword)]
    rfl

end Kernel

/-!
## Rows and columns
-/

theorem sum_cells (f : Nat -> Amplitude ℝ) :
    ∑ x ∈ Finset.range (twoPow (2 * n)), f x =
      ∑ c ∈ Finset.range (twoPow n), ∑ r ∈ Finset.range (twoPow n), f (cell n r c) := by
  rw [twoPow_two_mul, ← sum_range_mul (twoPow n) (twoPow n) fun r c => f (cell n r c)]
  apply Finset.sum_congr rfl
  intro x _
  unfold cell
  rw [Nat.mod_add_div']

theorem merge_rows {r c a w : Nat} (hqs : forall q, q ∈ qs -> q < n) (hr : r < twoPow n)
    (ha : a < twoPow n) :
    merge qs u (cell n r c) (cell n a w) = if w = c then merge qs u r a else 0 := by
  have hgather : gather qs (cell n r c) = gather qs r :=
    gather_congr fun q hq => testBit_cell_row c hr (hqs q hq)
  have hblock : lowest qs (cell n a w) = lowest qs (cell n r c) ↔
      lowest qs a = lowest qs r ∧ w = c := by
    rw [lowest_rows w hqs ha, lowest_rows c hqs hr,
      cell_eq_cell_iff (lowest_lt qs ha) (lowest_lt qs hr)]
  unfold merge
  rw [hgather, leastSpelling_rows w hqs ha]
  simp only [hblock]
  by_cases hw : w = c <;> simp [hw]

theorem merge_columns {r c a w : Nat} (hr : r < twoPow n) (ha : a < twoPow n) :
    merge (sideBits true n qs) u (cell n r c) (cell n a w) =
      if a = r then merge qs u c w else 0 := by
  have hgather : gather (sideBits true n qs) (cell n r c) = gather qs c :=
    gather_map fun q _ => testBit_cell_column c q hr
  have hblock : lowest (sideBits true n qs) (cell n a w) =
      lowest (sideBits true n qs) (cell n r c) ↔ a = r ∧ lowest qs w = lowest qs c := by
    rw [lowest_columns w ha, lowest_columns c hr, cell_eq_cell_iff ha hr]
  unfold merge
  rw [hgather, leastSpelling_columns w ha]
  simp only [hblock]
  by_cases hrow : a = r <;> simp [hrow]

theorem merge_bothSides {r c a w : Nat} (hqs : forall q, q ∈ qs -> q < n) (hr : r < twoPow n)
    (hc : c < twoPow n) (ha : a < twoPow n) (hm : Kernel.IsSuperop (twoPow qs.length) ks m) :
    merge (bothSides n qs) m (cell n r c) (cell n a w) =
      (ks.map fun k => merge qs k r a * (merge qs k c w).conj).sum := by
  have hblock : lowest (bothSides n qs) (cell n a w) = lowest (bothSides n qs) (cell n r c) ↔
      lowest qs a = lowest qs r ∧ lowest qs w = lowest qs c := by
    rw [lowest_bothSides w hqs ha, lowest_bothSides c hqs hr,
      cell_eq_cell_iff (lowest_lt qs ha) (lowest_lt qs hr)]
  unfold merge
  rw [gather_bothSides hqs hr hc, leastSpelling_bothSides w hqs ha,
    hm _ _ _ _ (gather_lt qs r) (gather_lt qs c) (leastSpelling_lt qs a) (leastSpelling_lt qs w)]
  simp only [hblock]
  by_cases hrow : lowest qs a = lowest qs r
  · by_cases hcolumn : lowest qs w = lowest qs c
    · simp only [hrow, hcolumn, and_self, if_true, mul_comm]
    · simp [hcolumn]
  · simp [hrow]

theorem sum_merge_rows {r c : Nat} (hqs : forall q, q ∈ qs -> q < n) (hr : r < twoPow n)
    (hc : c < twoPow n) (f : Nat -> Amplitude ℝ) :
    ∑ x ∈ Finset.range (twoPow (2 * n)), merge qs u (cell n r c) x * f x =
      ∑ a ∈ Finset.range (twoPow n), merge qs u r a * f (cell n a c) := by
  rw [sum_cells, ← sum_range_single hc fun w =>
    ∑ a ∈ Finset.range (twoPow n), merge qs u r a * f (cell n a w)]
  apply Finset.sum_congr rfl
  intro w _
  have hentry : forall a, a ∈ Finset.range (twoPow n) ->
      merge qs u (cell n r c) (cell n a w) * f (cell n a w) =
        if w = c then merge qs u r a * f (cell n a w) else 0 := by
    intro a ha
    rw [merge_rows hqs hr (Finset.mem_range.mp ha), ite_mul, zero_mul]
  rw [Finset.sum_congr rfl hentry]
  split
  · rfl
  · exact Finset.sum_const_zero

theorem sum_merge_columns {r c : Nat} (hr : r < twoPow n) (f : Nat -> Amplitude ℝ) :
    ∑ x ∈ Finset.range (twoPow (2 * n)), merge (sideBits true n qs) u (cell n r c) x * f x =
      ∑ b ∈ Finset.range (twoPow n), merge qs u c b * f (cell n r b) := by
  rw [sum_cells]
  apply Finset.sum_congr rfl
  intro w _
  rw [← sum_range_single hr fun a => merge qs u c w * f (cell n a w)]
  apply Finset.sum_congr rfl
  intro a ha
  rw [merge_columns hr (Finset.mem_range.mp ha), ite_mul, zero_mul]

theorem channel_eq_sum {d r c : Nat} (ks : List Entries) (ρ : Entries) :
    channel d ks ρ r c = ∑ b ∈ Finset.range d, ∑ a ∈ Finset.range d,
      (ks.map fun k => k r a * (k c b).conj).sum * ρ a b := by
  induction ks with
  | nil =>
      simp [channel]
  | cons k rest ih =>
      have hcons : channel d (k :: rest) ρ r c = sandwich d k ρ r c + channel d rest ρ r c :=
        List.sum_cons
      rw [hcons, ih]
      unfold sandwich
      rw [Finset.sum_comm]
      simp only [List.map_cons, List.sum_cons, add_mul, Finset.sum_add_distrib]
      congr 1
      apply Finset.sum_congr rfl
      intro b _
      apply Finset.sum_congr rfl
      intro a _
      ring

theorem sum_merge_bothSides {r c : Nat} (hqs : forall q, q ∈ qs -> q < n) (hr : r < twoPow n)
    (hc : c < twoPow n) (hm : Kernel.IsSuperop (twoPow qs.length) ks m)
    (f : Nat -> Amplitude ℝ) :
    ∑ x ∈ Finset.range (twoPow (2 * n)), merge (bothSides n qs) m (cell n r c) x * f x =
      channel (twoPow n) (ks.map (merge qs)) (fun a w => f (cell n a w)) r c := by
  rw [sum_cells, channel_eq_sum]
  apply Finset.sum_congr rfl
  intro w _
  apply Finset.sum_congr rfl
  intro a ha
  rw [merge_bothSides hqs hr hc (Finset.mem_range.mp ha) hm, List.map_map]
  rfl

/-!
## What the kernels give
-/

namespace Kernel

theorem Gives.then {f g : Entries -> Entries} {first second : Buffer ℝ -> Outcome (Buffer ℝ)}
    (hf : Gives n f first) (hg : Gives n g second)
    (hlocal : forall ρ σ, (forall r c, r < twoPow n -> c < twoPow n -> ρ r c = σ r c) ->
      forall r c, r < twoPow n -> c < twoPow n -> g ρ r c = g σ r c) :
    Gives n (fun ρ => g (f ρ)) fun b => first b >>= second := by
  intro b hb
  rcases hf b hb with ⟨middle, hfirst, hsize, hmiddle⟩
  rcases hg middle hsize with ⟨b', hsecond, hsize', hentry⟩
  refine ⟨b', bind_eq_ok_iff.mpr ⟨middle, hfirst, hsecond⟩, hsize', ?_⟩
  intro r c hr hc
  rw [hentry r c hr hc, hlocal _ _ hmiddle r c hr hc]

variable {columns : Buffer ℝ}

theorem gives_dense {f : Entries -> Entries} (hps : forall p, p ∈ ps -> p < 2 * n)
    (hn : 2 * n ≤ wordBits) (hlen : ps.length < 59)
    (hsize : twoPow ps.length * twoPow ps.length ≤ columns.size)
    (hf : forall (ρ : Nat -> Amplitude ℝ) r c, r < twoPow n -> c < twoPow n ->
      (if visits (twoPow (2 * n)) ps (cell n r c) then
        ∑ x ∈ Finset.range (twoPow (2 * n)),
          merge ps (ofColumns (twoPow ps.length) columns) (cell n r c) x * ρ x
      else ρ (cell n r c)) = f (fun a w => ρ (cell n a w)) r c) :
    Gives n f (dense ps columns) := by
  intro b hb
  refine ⟨_, dense_eq_merge hps hn hb hlen hsize, Buffer.size_tabulate _ _, ?_⟩
  intro r c hr hc
  rw [Buffer.toEntries_tabulate _ hr hc, hf b.entry r c hr hc]
  rfl

theorem gives_rows (hqs : forall q, q ∈ qs -> q < n) (hn : 2 * n ≤ wordBits)
    (hlen : qs.length < 59) (hsize : twoPow qs.length * twoPow qs.length ≤ columns.size) :
    Gives n (rowPass n qs (ofColumns (twoPow qs.length) columns)) (dense qs columns) := by
  apply gives_dense (fun q hq => by have hlt := hqs q hq; omega) hn hlen hsize
  intro ρ r c hr hc
  rw [sum_merge_rows hqs hr hc]
  rfl

theorem gives_columns (hqs : forall q, q ∈ qs -> q < n) (hn : 2 * n ≤ wordBits)
    (hlen : qs.length < 59) (hsize : twoPow qs.length * twoPow qs.length ≤ columns.size) :
    Gives n (columnPass n qs (ofColumns (twoPow qs.length) columns))
      (dense (sideBits true n qs) columns) := by
  have hlength := length_sideBits true n qs
  apply gives_dense (lt_of_mem_sideBits hqs) hn (by rw [hlength]; exact hlen)
    (by rw [hlength]; exact hsize)
  intro ρ r c hr hc
  rw [hlength, sum_merge_columns hr]
  rfl

theorem gives_unitary (hqs : forall q, q ∈ qs -> q < n) (hn : 2 * n ≤ wordBits)
    (hlen : qs.length < 59) (hsize : twoPow qs.length * twoPow qs.length ≤ columns.size) :
    Gives n (fun ρ => columnPass n qs (ofColumns (twoPow qs.length) columns.conj)
        (rowPass n qs (ofColumns (twoPow qs.length) columns) ρ))
      (unitary n qs columns) := by
  apply (gives_rows hqs hn hlen hsize).then
    (gives_columns hqs hn hlen (by rw [Buffer.size_conj]; exact hsize))
  intro ρ σ h r c hr hc
  unfold columnPass
  split
  · apply Finset.sum_congr rfl
    intro w hw
    rw [h r w hr (Finset.mem_range.mp hw)]
  · exact h r c hr hc

theorem gives_channel (hqs : forall q, q ∈ qs -> q < n) (hn : 2 * n ≤ wordBits)
    (hlen : 2 * qs.length < 59)
    (hsize : twoPow (2 * qs.length) * twoPow (2 * qs.length) ≤ columns.size)
    (hm : IsSuperop (twoPow qs.length) ks
      (ofColumns (twoPow qs.length * twoPow qs.length) columns)) :
    Gives n (channelPass n qs ks) (dense (bothSides n qs) columns) := by
  have hlength := length_bothSides n qs
  apply gives_dense (lt_of_mem_bothSides hqs) hn (by rw [hlength]; exact hlen)
    (by rw [hlength]; exact hsize)
  intro ρ r c hr hc
  rw [hlength, twoPow_two_mul qs.length, sum_merge_bothSides hqs hr hc hm]
  rfl

end Kernel

/-!
## Traces
-/

def visitsDiagonal (n : Nat) (qs : List Nat) (r : Nat) : Bool :=
  Kernel.visits (twoPow (2 * n)) (bothSides n qs) (cell n r r)

theorem visitsDiagonal_congr {r a : Nat} (hqs : forall q, q ∈ qs -> q < n) (hr : r < twoPow n)
    (ha : a < twoPow n) (h : lowest qs r = lowest qs a) :
    visitsDiagonal n qs r = visitsDiagonal n qs a := by
  apply Kernel.visits_congr
  rw [lowest_bothSides r hqs hr, lowest_bothSides a hqs ha, h]

/-- What the matrices send from a row and a column of a block that is visited to numbers
that are gathered from no index. -/
noncomputable def leakAt (n : Nat) (qs : List Nat) (ks : List Entries) : Entries :=
  fun a b =>
    if visitsDiagonal n qs a = true ∧ lowest qs b = lowest qs a then
      (ks.map fun k => ∑ d ∈ Finset.range (twoPow qs.length),
        if IsConsistent qs d then 0
        else (k d (leastSpelling qs b)).conj * k d (leastSpelling qs a)).sum
    else 0

/-- The weight of a density matrix that goes there. -/
noncomputable def leak (n : Nat) (qs : List Nat) (ks : List Entries) (ρ : Entries) :
    Amplitude ℝ :=
  ∑ a ∈ Finset.range (twoPow n), ∑ b ∈ Finset.range (twoPow n), ρ a b * leakAt n qs ks a b

noncomputable def mergeVisited (n : Nat) (qs : List Nat) (k : Entries) : Entries :=
  fun r a => if visitsDiagonal n qs r then merge qs k r a else 0

theorem channel_mergeVisited (r : Nat) :
    channel (twoPow n) (ks.map (mergeVisited n qs)) ρ r r =
      if visitsDiagonal n qs r then channel (twoPow n) (ks.map (merge qs)) ρ r r else 0 := by
  rw [channel_eq_sum, channel_eq_sum]
  simp only [List.map_map]
  unfold mergeVisited
  cases hvisits : visitsDiagonal n qs r <;> simp [Function.comp_def, hvisits]

theorem gram_mergeVisited {k : Entries} {a b : Nat} (hqs : forall q, q ∈ qs -> q < n)
    (ha : a < twoPow n) :
    gram (twoPow n) (mergeVisited n qs k) b a =
      if visitsDiagonal n qs a = true ∧ lowest qs b = lowest qs a then
        ∑ d ∈ Finset.range (twoPow qs.length), if IsConsistent qs d then
          (k d (leastSpelling qs b)).conj * k d (leastSpelling qs a) else 0
      else 0 := by
  have hterm : forall r, r ∈ Finset.range (twoPow n) ->
      (mergeVisited n qs k r b).conj * mergeVisited n qs k r a =
        if lowest qs r = lowest qs a then
          if visitsDiagonal n qs a = true ∧ lowest qs b = lowest qs a then
            (k (gather qs r) (leastSpelling qs b)).conj * k (gather qs r) (leastSpelling qs a)
          else 0
        else 0 := by
    intro r hr
    have hr := Finset.mem_range.mp hr
    unfold mergeVisited merge
    by_cases hblock : lowest qs r = lowest qs a
    · rw [visitsDiagonal_congr hqs hr ha hblock, hblock]
      by_cases hvisits : visitsDiagonal n qs a = true
      · by_cases hb : lowest qs b = lowest qs a <;> simp [hvisits, hb]
      · simp [hvisits]
    · have hblock' : ¬lowest qs a = lowest qs r := fun h => hblock h.symm
      simp [hblock, hblock']
  unfold gram
  rw [Finset.sum_congr rfl hterm, sum_gather hqs ha fun d =>
    if visitsDiagonal n qs a = true ∧ lowest qs b = lowest qs a then
      (k d (leastSpelling qs b)).conj * k d (leastSpelling qs a)
    else 0]
  split
  · rfl
  · simp

theorem sum_consistent {i j : Nat} (hks : IsComplete (twoPow qs.length) ks)
    (hi : i < twoPow qs.length) (hj : j < twoPow qs.length) :
    (ks.map fun k => ∑ d ∈ Finset.range (twoPow qs.length),
        if IsConsistent qs d then (k d i).conj * k d j else 0).sum =
      (if i = j then 1 else 0) - (ks.map fun k => ∑ d ∈ Finset.range (twoPow qs.length),
        if IsConsistent qs d then 0 else (k d i).conj * k d j).sum := by
  rw [eq_sub_iff_add_eq, ← List.sum_map_add, ← hks i j hi hj]
  congr 2
  funext k
  unfold gram
  rw [← Finset.sum_add_distrib]
  apply Finset.sum_congr rfl
  intro d _
  split
  · rw [add_zero]
  · rw [zero_add]

/-- Merged, complete matrices are complete in the blocks that are visited, but for what
leaks. -/
theorem sum_gram_mergeVisited {a : Nat} (hqs : forall q, q ∈ qs -> q < n)
    (hks : IsComplete (twoPow qs.length) ks) (ha : a < twoPow n) (b : Nat) :
    ((ks.map (mergeVisited n qs)).map fun k => gram (twoPow n) k b a).sum =
      (if b = a then if visitsDiagonal n qs a then 1 else 0 else 0) - leakAt n qs ks a b := by
  unfold leakAt
  rw [List.map_map]
  simp only [Function.comp_def, gram_mergeVisited hqs ha]
  by_cases hcond : visitsDiagonal n qs a = true ∧ lowest qs b = lowest qs a
  · simp only [if_pos hcond, if_pos hcond.1]
    have hsame : leastSpelling qs b = leastSpelling qs a ↔ b = a :=
      ⟨leastSpelling_injective hcond.2, fun h => h ▸ rfl⟩
    rw [sum_consistent hks (leastSpelling_lt qs b) (leastSpelling_lt qs a)]
    simp only [hsame]
  · simp only [if_neg hcond, sub_zero]
    by_cases hba : b = a
    · have hvisits : ¬visitsDiagonal n qs a = true := fun hvisits => hcond ⟨hvisits, hba ▸ rfl⟩
      simp [hvisits]
    · simp [hba]

theorem trace_channelPass (hqs : forall q, q ∈ qs -> q < n)
    (hks : IsComplete (twoPow qs.length) ks) (ρ : Entries) :
    ∑ r ∈ Finset.range (twoPow n), channelPass n qs ks ρ r r =
      ∑ r ∈ Finset.range (twoPow n), ρ r r - leak n qs ks ρ := by
  have hsplit : forall r, r ∈ Finset.range (twoPow n) -> channelPass n qs ks ρ r r =
      channel (twoPow n) (ks.map (mergeVisited n qs)) ρ r r
        + if visitsDiagonal n qs r then 0 else ρ r r := by
    intro r _
    rw [channel_mergeVisited]
    change (if visitsDiagonal n qs r = true then _ else _) = _
    split
    · rw [add_zero]
    · rw [zero_add]
  have hrow : forall a, a ∈ Finset.range (twoPow n) ->
      ∑ b ∈ Finset.range (twoPow n),
          ρ a b * ((ks.map (mergeVisited n qs)).map fun k => gram (twoPow n) k b a).sum =
        (if visitsDiagonal n qs a then ρ a a else 0)
          - ∑ b ∈ Finset.range (twoPow n), ρ a b * leakAt n qs ks a b := by
    intro a ha
    have ha := Finset.mem_range.mp ha
    rw [← sum_range_single ha fun b => if visitsDiagonal n qs a then ρ a b else 0,
      ← Finset.sum_sub_distrib]
    apply Finset.sum_congr rfl
    intro b _
    rw [sum_gram_mergeVisited hqs hks ha, mul_sub]
    simp only [mul_ite, mul_one, mul_zero]
  rw [Finset.sum_congr rfl hsplit, Finset.sum_add_distrib, trace_channel,
    Finset.sum_congr rfl hrow, Finset.sum_sub_distrib]
  change _ - leak n qs ks ρ + _ = _
  rw [sub_add_eq_add_sub, ← Finset.sum_add_distrib]
  congr 1
  apply Finset.sum_congr rfl
  intro r _
  split
  · rw [add_zero]
  · rw [zero_add]

/-!
## Resets
-/

theorem leak_resetOperators (n : Nat) (qs : List Nat) (d : Nat) (ρ : Entries) :
    leak n qs (resetOperators d) ρ = 0 := by
  have hnone : forall i j, ((resetOperators d).map fun k =>
      ∑ x ∈ Finset.range (twoPow qs.length),
        if IsConsistent qs x then 0 else (k x i).conj * k x j).sum = 0 := by
    intro i j
    apply List.sum_eq_zero
    intro term hterm
    rcases List.mem_map.mp hterm with ⟨k, hk, rfl⟩
    rcases List.mem_map.mp hk with ⟨s, _, rfl⟩
    apply Finset.sum_eq_zero
    intro x _
    split
    · rfl
    · next hambiguous =>
        have hx : ¬x = 0 := fun h => hambiguous (h ▸ isConsistent_zero qs)
        simp [hx]
  unfold leak leakAt
  simp only [hnone, ite_self, mul_zero, Finset.sum_const_zero]

theorem channelPass_resetOperators {r q d : Nat} (hq : q ∈ qs) (hbit : r.testBit q = true)
    (ρ : Entries) :
    channelPass n qs (resetOperators d) ρ r r =
      if visitsDiagonal n qs r then 0 else ρ r r := by
  have hzero : channel (twoPow n) ((resetOperators d).map (merge qs)) ρ r r = 0 := by
    rw [channel_eq_sum]
    apply Finset.sum_eq_zero
    intro b _
    apply Finset.sum_eq_zero
    intro a _
    have hnone : (((resetOperators d).map (merge qs)).map fun k =>
        k r a * (k r b).conj).sum = 0 := by
      apply List.sum_eq_zero
      intro term hterm
      rcases List.mem_map.mp hterm with ⟨merged, hmerged, rfl⟩
      rcases List.mem_map.mp hmerged with ⟨k, hk, rfl⟩
      rcases List.mem_map.mp hk with ⟨s, _, rfl⟩
      simp [merge, gather_ne_zero hq hbit]
    rw [hnone, zero_mul]
  change (if visitsDiagonal n qs r = true then _ else _) = _
  rw [hzero]

end MixedState
