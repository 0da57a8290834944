import MixedState.Proofs.Exact
import MixedState.Proofs.Density.Lift
import MixedState.Proofs.Pauli

/-!
# Operators as superoperators

An operator on a buffer of `n` qubits is a superoperator on the row bits and the column
bits of listed qubits.  One that is built from complete matrices is their channel, lifted
to the register: it keeps traces and density matrices.
-/

namespace MixedState

open MixedState.Basis

/-- The matrix that a buffer of `n` qubits holds. -/
noncomputable def Buffer.toEntries (n : Nat) (b : Buffer ℝ) : Entries :=
  fun r c => b.entry (cell n r c)

structure Buffer.IsDensity (n : Nat) (b : Buffer ℝ) : Prop where
  full : b.size = twoPow (2 * n)
  density : MixedState.IsDensity (twoPow n) (b.toEntries n)

def Kernel.Keeps (n : Nat) (kernel : Buffer ℝ -> Outcome (Buffer ℝ)) : Prop :=
  forall b, b.IsDensity n -> exists b', kernel b = .ok b' ∧ b'.IsDensity n

variable {n : Nat} {qs : List Nat} {b : Buffer ℝ}

theorem add_mul_lt {d i j : Nat} (hi : i < d) (hj : j < d) : i + d * j < d * d := by
  have hrow : d * (j + 1) ≤ d * d := Nat.mul_le_mul_left d hj
  rw [Nat.mul_succ] at hrow
  omega

theorem add_mul_mod {d i j : Nat} (hi : i < d) : (i + d * j) % d = i := by
  rw [Nat.add_mul_mod_self_left, Nat.mod_eq_of_lt hi]

theorem add_mul_div {d i j : Nat} (hi : i < d) : (i + d * j) / d = j := by
  rw [Nat.add_mul_div_left _ _ (by omega), Nat.div_eq_of_lt hi, Nat.zero_add]

theorem Buffer.toEntries_tabulate (f : Nat -> Amplitude ℝ) {r c : Nat} (hr : r < twoPow n)
    (hc : c < twoPow n) :
    (Buffer.tabulate (twoPow (2 * n)) f).toEntries n r c = f (cell n r c) :=
  Buffer.entry_tabulate_of_lt f (cell_lt hr hc)

/-!
## Rows and columns at once
-/

namespace Basis

theorem overwrite_append {ps : List Nat} {x i j : Nat} (hnodup : (ps ++ qs).Nodup)
    (hi : i < twoPow ps.length) (hj : j < twoPow qs.length) :
    overwrite (ps ++ qs) x (i + twoPow ps.length * j) = overwrite qs (overwrite ps x i) j := by
  rcases List.nodup_append.mp hnodup with ⟨hps, hqs, hdisjoint⟩
  have hkept : forall q, q ∉ ps ++ qs ->
      (overwrite qs (overwrite ps x i) j).testBit q = x.testBit q := by
    intro q hq
    rw [List.mem_append, not_or] at hq
    rw [testBit_overwrite_of_not_mem _ j hq.2, testBit_overwrite_of_not_mem x i hq.1]
  have hfirst : gather ps (overwrite qs (overwrite ps x i) j) = i := by
    rw [← gather_overwrite x hps hi]
    apply gather_congr
    intro p hp
    rw [testBit_overwrite_of_not_mem _ j fun hq => hdisjoint p hp p hq rfl,
      gather_overwrite x hps hi]
  rw [eq_overwrite_gather hnodup hkept, gather_append, hfirst, gather_overwrite _ hqs hj]

theorem gather_bothSides {r c : Nat} (hqs : forall q, q ∈ qs -> q < n) (hr : r < twoPow n)
    (hc : c < twoPow n) :
    gather (bothSides n qs) (cell n r c) = gather qs r + twoPow qs.length * gather qs c := by
  have hrows : gather (sideBits false n qs) (cell n r c) = gather qs r :=
    gather_sideBits_cell hqs hr hc
  have hcolumns : gather (sideBits true n qs) (cell n r c) = gather qs c :=
    gather_sideBits_cell hqs hr hc
  rw [sideBits_false] at hrows
  unfold bothSides
  rw [gather_append, hrows, hcolumns]

theorem overwrite_bothSides {r c i j : Nat} (hnodup : qs.Nodup)
    (hqs : forall q, q ∈ qs -> q < n) (hr : r < twoPow n) (hc : c < twoPow n)
    (hi : i < twoPow qs.length) (hj : j < twoPow qs.length) :
    overwrite (bothSides n qs) (cell n r c) (i + twoPow qs.length * j) =
      cell n (overwrite qs r i) (overwrite qs c j) := by
  have hrows := (Frame.rows n c).overwrite_map hqs hnodup hr i
  have hcolumns := (Frame.columns (overwrite_lt i hqs hr)).overwrite_map hqs hnodup hc j
  have hboth := overwrite_append (x := cell n r c) (nodup_bothSides hnodup hqs) hi
    (by rw [length_sideBits]; exact hj)
  rw [List.map_id] at hrows
  unfold bothSides
  rw [hboth, ← hrows, hcolumns]
  rfl

end Basis

theorem act_rows {u : Entries} {r : Nat} (c : Nat) (hnodup : qs.Nodup)
    (hqs : forall q, q ∈ qs -> q < n) (hr : r < twoPow n) (f : Nat -> Amplitude ℝ) :
    act qs u f (cell n r c) = act qs u (fun a => f (cell n a c)) r := by
  have hrows := (Frame.rows n c).act_map hqs hnodup hr u f
  rw [List.map_id] at hrows
  exact hrows

theorem act_columns {u : Entries} {r c : Nat} (hnodup : qs.Nodup)
    (hqs : forall q, q ∈ qs -> q < n) (hr : r < twoPow n) (hc : c < twoPow n)
    (f : Nat -> Amplitude ℝ) :
    act (sideBits true n qs) u f (cell n r c) = act qs u (fun b => f (cell n r b)) c :=
  (Frame.columns hr).act_map hqs hnodup hc u f

theorem act_bothSides {m : Entries} {r c : Nat} (hnodup : qs.Nodup)
    (hqs : forall q, q ∈ qs -> q < n) (hr : r < twoPow n) (hc : c < twoPow n)
    (f : Nat -> Amplitude ℝ) :
    act (bothSides n qs) m f (cell n r c) =
      ∑ j ∈ Finset.range (twoPow qs.length), ∑ i ∈ Finset.range (twoPow qs.length),
        m (gather qs r + twoPow qs.length * gather qs c) (i + twoPow qs.length * j) *
          f (cell n (overwrite qs r i) (overwrite qs c j)) := by
  unfold act
  rw [length_bothSides, twoPow_two_mul, ← sum_range_mul (twoPow qs.length) (twoPow qs.length)
    fun i j => m (gather qs r + twoPow qs.length * gather qs c) (i + twoPow qs.length * j) *
      f (cell n (overwrite qs r i) (overwrite qs c j))]
  apply Finset.sum_congr rfl
  intro x hx
  have hlt := Finset.mem_range.mp hx
  have hlow : x % twoPow qs.length < twoPow qs.length := Nat.mod_lt _ (twoPow_pos _)
  have hhigh : x / twoPow qs.length < twoPow qs.length :=
    Nat.div_lt_of_lt_mul hlt
  rw [← overwrite_bothSides hnodup hqs hr hc hlow hhigh, Nat.mod_add_div,
    gather_bothSides hqs hr hc]

namespace Kernel

/-!
## Matrices and superoperators
-/

noncomputable def ofColumns (d : Nat) (columns : Buffer ℝ) : Entries :=
  fun i j => columns.entry (i + d * j)

theorem denseSide_eq_ok (onColumns : Bool) {columns : Buffer ℝ} (hn : 2 * n < wordBits)
    (hnodup : qs.Nodup) (hqs : forall q, q ∈ qs -> q < n) (hb : b.size = twoPow (2 * n))
    (hsize : twoPow qs.length * twoPow qs.length ≤ columns.size) :
    dense (sideBits onColumns n qs) columns b =
      .ok (Buffer.tabulate (twoPow (2 * n))
        (act (sideBits onColumns n qs) (ofColumns (twoPow qs.length) columns) b.entry)) := by
  have hbits : forall p, p ∈ sideBits onColumns n qs -> p < 2 * n := lt_of_mem_sideBits hqs
  have hlen := length_sideBits onColumns n qs
  have hfew : (sideBits onColumns n qs).length < 59 := by
    have hle := length_le_of_nodup hnodup hqs
    unfold wordBits at hn
    omega
  rw [dense_eq_ok (nodup_sideBits hnodup) hbits hn hfew hb (by rw [hlen]; exact hsize), hlen, hb]
  rfl

/-!
## Superoperators
-/

/-- On full buffers the kernel is a superoperator on the row bits and the column bits of
the qubits. -/
def ActsAs (n : Nat) (qs : List Nat) (m : Entries)
    (kernel : Buffer ℝ -> Outcome (Buffer ℝ)) : Prop :=
  forall b : Buffer ℝ, b.size = twoPow (2 * n) ->
    kernel b = .ok (Buffer.tabulate (twoPow (2 * n)) (act (bothSides n qs) m b.entry))

theorem actsAs_of_cells {m : Entries} {kernel : Buffer ℝ -> Outcome (Buffer ℝ)}
    (h : forall b : Buffer ℝ, b.size = twoPow (2 * n) ->
      exists b', kernel b = .ok b' ∧ b'.size = b.size ∧
        forall r c, r < twoPow n -> c < twoPow n ->
          b'.entry (cell n r c) = act (bothSides n qs) m b.entry (cell n r c)) :
    ActsAs n qs m kernel := by
  intro b hb
  rcases h b hb with ⟨b', hkernel, hsize, hentry⟩
  rw [hkernel]
  congr 1
  apply Buffer.ext_entry
  · rw [hsize, hb, Buffer.size_tabulate]
  · intro x hx
    rw [hsize, hb] at hx
    rcases eq_cell hx with ⟨r, c, hr, hc, rfl⟩
    rw [hentry r c hr hc, Buffer.entry_tabulate_of_lt _ hx]

/-- The superoperator `Σ conj(K) ⊗ K`, which acts on row bits in the low part of its
indices. -/
def IsSuperop (d : Nat) (ks : List Entries) (m : Entries) : Prop :=
  forall i j a b, i < d -> j < d -> a < d -> b < d ->
    m (i + d * j) (a + d * b) = (ks.map fun k => (k j b).conj * k i a).sum

noncomputable def superopOf (d : Nat) (k : Entries) : Entries :=
  fun x y => (k (x / d) (y / d)).conj * k (x % d) (y % d)

theorem superopOf_apply {d : Nat} (k : Entries) {i j a b : Nat} (hi : i < d) (ha : a < d) :
    superopOf d k (i + d * j) (a + d * b) = (k j b).conj * k i a := by
  unfold superopOf
  rw [add_mul_mod hi, add_mul_div hi, add_mul_mod ha, add_mul_div ha]

theorem isSuperop_superopOf (d : Nat) (k : Entries) : IsSuperop d [k] (superopOf d k) := by
  intro i j a b hi _ ha _
  rw [superopOf_apply k hi ha, List.map_singleton, List.sum_singleton]

def IsChannel (d : Nat) (m : Entries) : Prop :=
  exists ks, IsSuperop d ks m ∧ IsComplete d ks

theorem isChannel_superopOf {d : Nat} {k : Entries} (hk : IsComplete d [k]) :
    IsChannel d (superopOf d k) :=
  ⟨[k], isSuperop_superopOf d k, hk⟩

theorem IsSuperop.sum_diagonal {d i j : Nat} {ks : List Entries} {m : Entries}
    (h : IsSuperop d ks m) (hi : i < d) (hj : j < d) :
    ∑ r ∈ Finset.range d, m (r + d * r) (i + d * j) = (ks.map fun k => gram d k j i).sum := by
  have hterm : forall r, r ∈ Finset.range d ->
      m (r + d * r) (i + d * j) = (ks.map fun k => (k r j).conj * k r i).sum :=
    fun r hr => h r r i j (Finset.mem_range.mp hr) (Finset.mem_range.mp hr) hi hj
  rw [Finset.sum_congr rfl hterm]
  clear h hterm
  induction ks with
  | nil =>
      simp
  | cons k rest ih =>
      simp only [List.map_cons, List.sum_cons, Finset.sum_add_distrib]
      rw [ih]
      rfl

theorem IsChannel.sum_diagonal {d i j : Nat} {m : Entries} (h : IsChannel d m) (hi : i < d)
    (hj : j < d) :
    ∑ r ∈ Finset.range d, m (r + d * r) (i + d * j) = if j = i then 1 else 0 := by
  rcases h with ⟨ks, hsuperop, hcomplete⟩
  rw [hsuperop.sum_diagonal hi hj, hcomplete j i hj hi]

theorem sum_act_eq_channel {ks : List Entries} {ρ : Entries} {r c : Nat} (hnodup : qs.Nodup)
    (hqs : forall q, q ∈ qs -> q < n) (hr : r < twoPow n) (hc : c < twoPow n) :
    ∑ j ∈ Finset.range (twoPow qs.length), ∑ i ∈ Finset.range (twoPow qs.length),
        (ks.map fun k => (k (gather qs c) j).conj * k (gather qs r) i).sum *
          ρ (overwrite qs r i) (overwrite qs c j) =
      channel (twoPow n) (ks.map (liftOn qs)) ρ r c := by
  induction ks with
  | nil =>
      simp [channel]
  | cons k rest ih =>
      have hcons : channel (twoPow n) ((k :: rest).map (liftOn qs)) ρ r c =
          sandwich (twoPow n) (liftOn qs k) ρ r c
            + channel (twoPow n) (rest.map (liftOn qs)) ρ r c := List.sum_cons
      simp only [List.map_cons, List.sum_cons, add_mul, Finset.sum_add_distrib]
      rw [List.map_cons] at hcons
      rw [hcons, ih, sandwich_liftOn hnodup hqs hr hc]
      congr 1
      apply Finset.sum_congr rfl
      intro j _
      unfold act
      rw [Finset.mul_sum]
      apply Finset.sum_congr rfl
      intro i _
      ring

theorem ActsAs.keeps {ks : List Entries} {m : Entries}
    {kernel : Buffer ℝ -> Outcome (Buffer ℝ)} (h : ActsAs n qs m kernel) (hnodup : qs.Nodup)
    (hqs : forall q, q ∈ qs -> q < n) (hm : IsSuperop (twoPow qs.length) ks m)
    (hks : IsComplete (twoPow qs.length) ks) : Keeps n kernel := by
  intro b hb
  refine ⟨_, h b hb.full, Buffer.size_tabulate _ _, ?_⟩
  apply (hb.density.channel (hks.liftOn hnodup hqs)).congr
  intro r c hr hc
  rw [Buffer.toEntries_tabulate _ hr hc, act_bothSides hnodup hqs hr hc,
    ← sum_act_eq_channel hnodup hqs hr hc]
  apply Finset.sum_congr rfl
  intro j hj
  apply Finset.sum_congr rfl
  intro i hi
  rw [hm _ _ i j (gather_lt qs r) (gather_lt qs c) (Finset.mem_range.mp hi)
    (Finset.mem_range.mp hj)]
  rfl

theorem actsAs_unitary {columns : Buffer ℝ} (hn : 2 * n < wordBits) (hnodup : qs.Nodup)
    (hqs : forall q, q ∈ qs -> q < n)
    (hsize : twoPow qs.length * twoPow qs.length ≤ columns.size) :
    ActsAs n qs (superopOf (twoPow qs.length) (ofColumns (twoPow qs.length) columns))
      (unitary n qs columns) := by
  apply actsAs_of_cells
  intro b hb
  have hrows := denseSide_eq_ok false hn hnodup hqs hb hsize
  have hcolumns : dense (sideBits true n qs) columns.conj (Buffer.tabulate (twoPow (2 * n))
      (act qs (ofColumns (twoPow qs.length) columns) b.entry)) = .ok _ :=
    denseSide_eq_ok true hn hnodup hqs (Buffer.size_tabulate _ _)
      (by rw [Buffer.size_conj]; exact hsize)
  rw [sideBits_false] at hrows
  refine ⟨_, bind_eq_ok_iff.mpr ⟨_, hrows, hcolumns⟩,
    by rw [Buffer.size_tabulate, hb], ?_⟩
  intro r c hr hc
  rw [Buffer.entry_tabulate_of_lt _ (cell_lt hr hc), act_columns hnodup hqs hr hc,
    act_bothSides hnodup hqs hr hc]
  refine Finset.sum_congr rfl fun j _ => ?_
  have hconj : ofColumns (twoPow qs.length) columns.conj (gather qs c) j =
      (ofColumns (twoPow qs.length) columns (gather qs c) j).conj :=
    Buffer.entry_conj _ _
  have hrow := act_rows (u := ofColumns (twoPow qs.length) columns) (overwrite qs c j) hnodup
    hqs hr b.entry
  dsimp only
  rw [hconj, Buffer.entry_tabulate_of_lt _ (cell_lt hr (overwrite_lt j hqs hc)), hrow]
  unfold act
  rw [Finset.mul_sum]
  apply Finset.sum_congr rfl
  intro i hi
  rw [superopOf_apply _ (gather_lt qs r) (Finset.mem_range.mp hi), mul_assoc]

theorem actsAs_dense {columns : Buffer ℝ} (hn : 2 * n < wordBits) (hnodup : qs.Nodup)
    (hqs : forall q, q ∈ qs -> q < n) (hfew : 2 * qs.length < 59)
    (hsize : twoPow (2 * qs.length) * twoPow (2 * qs.length) ≤ columns.size) :
    ActsAs n qs (ofColumns (twoPow (2 * qs.length)) columns) (dense (bothSides n qs) columns) := by
  intro b hb
  have hlen := length_bothSides n qs
  rw [dense_eq_ok (nodup_bothSides hnodup hqs) (lt_of_mem_bothSides hqs) hn
    (by rw [hlen]; exact hfew) hb (by rw [hlen]; exact hsize), hlen, hb]
  rfl

end Kernel

end MixedState
