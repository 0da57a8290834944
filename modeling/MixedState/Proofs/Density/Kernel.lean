import MixedState.Proofs.Basis.Blocks
import MixedState.Proofs.Exact
import MixedState.Proofs.Outcome

/-!
# What the kernels do to each entry

Where a kernel does not crash, it gives each entry of the new buffer from the
old one by a formula in the bits of its index.  A dense matrix acts as `act`: the
listed bits of an index run through all values, and the others stay.
-/

namespace MixedState

variable {R : Type} [Scalar R]

namespace Buffer

theorem entry_tabulate_of_lt {n i : Nat} (f : Nat -> Amplitude R) (h : i < n) :
    (tabulate n f).entry i = f i := by
  rw [entry_tabulate, if_pos h]

theorem ext_entry {a b : Buffer R} (hsize : a.size = b.size)
    (h : forall i, i < a.size -> a.entry i = b.entry i) : a = b := by
  apply Array.ext hsize
  intro i ha hb
  have hi := h i ha
  simpa [entry, Array.getD, ha, hb] using hi

theorem tabulate_entry (b : Buffer R) : tabulate b.size b.entry = b := by
  apply ext_entry
  · simp
  · intro i hi
    rw [size_tabulate] at hi
    exact entry_tabulate_of_lt b.entry hi

omit [Scalar R] in
theorem tabulate_congr {n : Nat} {f g : Nat -> Amplitude R}
    (h : forall i, i < n -> f i = g i) : tabulate n f = tabulate n g := by
  unfold tabulate
  congr 1
  funext i
  exact h i.val i.isLt

theorem entry_of_size_le {b : Buffer R} {i : Nat} (h : b.size ≤ i) : b.entry i = 0 := by
  have hi : ¬i < b.size := by omega
  simp [entry, Array.getD, hi]

@[simp] theorem size_conj (b : Buffer R) : b.conj.size = b.size :=
  Array.size_map

@[simp] theorem entry_conj (b : Buffer ℝ) (i : Nat) : b.conj.entry i = (b.entry i).conj := by
  by_cases hi : i < b.size
  · simp [conj, entry, Array.getD, hi]
  · rw [entry_of_size_le (by rw [size_conj]; omega), entry_of_size_le (by omega),
      Amplitude.conj_zero]

@[simp] theorem size_tensor (a b : Buffer R) : (a.tensor b).size = a.size * b.size :=
  size_tabulate _ _

theorem entry_tensor {a b : Buffer R} {i j : Nat} (hi : i < b.size) (hj : j < a.size) :
    (a.tensor b).entry (i + b.size * j) = a.entry j * b.entry i := by
  have hlt : i + b.size * j < a.size * b.size := by
    have hrow : (j + 1) * b.size ≤ a.size * b.size := Nat.mul_le_mul_right b.size hj
    rw [Nat.succ_mul, Nat.mul_comm j] at hrow
    omega
  have hdiv : (i + b.size * j) / b.size = j := by
    rw [Nat.add_mul_div_left _ _ (by omega), Nat.div_eq_of_lt hi, Nat.zero_add]
  have hmod : (i + b.size * j) % b.size = i := by
    rw [Nat.add_mul_mod_self_left, Nat.mod_eq_of_lt hi]
  unfold tensor
  rw [entry_tabulate_of_lt _ hlt, hdiv, hmod]

theorem entry_tensor_gather {a b : Buffer R} {ps qs : List Nat} {x : Nat}
    (hb : b.size = twoPow ps.length) (ha : a.size = twoPow qs.length) :
    (a.tensor b).entry (Basis.gather (ps ++ qs) x) =
      a.entry (Basis.gather qs x) * b.entry (Basis.gather ps x) := by
  have hlow := Basis.gather_lt ps x
  have hhigh := Basis.gather_lt qs x
  rw [Basis.gather_append, ← hb]
  exact entry_tensor (by omega) (by omega)

end Buffer

namespace Basis

theorem length_le_of_nodup {qs : List Nat} {n : Nat} (hnodup : qs.Nodup)
    (hqs : forall q, q ∈ qs -> q < n) : qs.length ≤ n := by
  have hsub : qs.Subperm (List.range n) :=
    hnodup.subperm fun q hq => List.mem_range.mpr (hqs q hq)
  simpa using hsub.length_le

theorem addressable_eq_ok_iff {qs : List Nat} :
    Checked.addressable qs = .ok () ↔ forall q, q ∈ qs -> q < wordBits := by
  unfold Checked.addressable
  rw [orCrash_eq_ok_iff, List.all_eq_true]
  exact ⟨fun h q hq => of_decide_eq_true (h q hq), fun h q hq => decide_eq_true (h q hq)⟩

end Basis

/-- The vector that a matrix on the listed bits makes of `f`. -/
noncomputable def act (qs : List Nat) (u : Nat -> Nat -> Amplitude ℝ)
    (f : Nat -> Amplitude ℝ) (x : Nat) : Amplitude ℝ :=
  ∑ j ∈ Finset.range (twoPow qs.length),
    u (Basis.gather qs x) j * f (Basis.overwrite qs x j)

namespace Kernel

open MixedState.Basis

variable {n : Nat} {qs : List Nat}

/-!
## Dense matrices
-/

theorem readOffsets_size (qs : List Nat) :
    (readOffsets qs).size = twoPow qs.length := by
  simp [readOffsets]

theorem readOffsets_getD (hnodup : qs.Nodup) {j : Nat} (hj : j < twoPow qs.length) :
    (readOffsets qs).getD j none = some (scatter qs j) := by
  simp [readOffsets, Array.getD_eq_getD_getElem?, hj, isLeastSpelling_of_nodup j hnodup]

/-- The entry at `x` of the product of a matrix, given by its columns, with the block of `x`,
added in the order of the columns. -/
def productAt (qs : List Nat) (columns b : Buffer R) (x : Nat) : Amplitude R :=
  sumBelow (twoPow qs.length) fun j =>
    columns.entry (gather qs x + twoPow qs.length * j) * b.entry (overwrite qs x j)

theorem productAt_eq_act (columns b : Buffer ℝ) (x : Nat) :
    productAt qs columns b x =
      act qs (fun i j => columns.entry (i + twoPow qs.length * j)) b.entry x :=
  sumBelow_eq_sum _ _

theorem product_eq_productAt {b : Buffer R} (hnodup : qs.Nodup) (columns : Buffer R) (x : Nat) :
    product b (readOffsets qs) columns (clearBits (bitMask qs) x) (gather qs x) =
      productAt qs columns b x := by
  unfold product productAt
  rw [readOffsets_size]
  apply sumBelow_congr
  intro j hj
  rw [readOffsets_getD hnodup hj]
  rfl

theorem dense_eq_productAt {b columns : Buffer R} (hnodup : qs.Nodup)
    (hqs : forall q, q ∈ qs -> q < n) (hn : n < wordBits) (hfew : qs.length < 59)
    (hb : b.size = twoPow n) (hcolumns : twoPow qs.length * twoPow qs.length ≤ columns.size) :
    dense qs columns b = .ok (Buffer.tabulate b.size (productAt qs columns b)) := by
  have hlen : qs.length ≤ n := length_le_of_nodup hnodup hqs
  have hpow : twoPow qs.length ≤ twoPow n := twoPow_le_twoPow hlen
  have hblocks : ¬b.size / twoPow qs.length = 0 := by
    rw [hb]
    exact Nat.ne_of_gt (Nat.div_pos hpow (twoPow_pos _))
  have hposition : (qs.all fun q => q < wordBits && twoPow q < b.size) = true := by
    rw [List.all_eq_true]
    intro q hq
    have hqn := hqs q hq
    have hqpow : twoPow q < b.size := by
      rw [hb]
      exact twoPow_lt_twoPow hqn
    have hword : q < wordBits := by omega
    simp [hqpow, hword]
  unfold dense
  rw [checkedShift_of_lt (by omega), ok_bind, allocate_sixteen_of_lt hfew, ok_bind]
  dsimp only
  rw [if_neg hblocks, orCrash_of_true hposition, ok_bind,
    orCrash_of_true (decide_eq_true hcolumns), ok_bind]
  congr 1
  apply Buffer.tabulate_congr
  intro x hx
  rw [hb] at hx ⊢
  unfold denseEntry
  dsimp only
  rw [if_pos (isBlockStart_clearBits hnodup hlen hqs hn hx), product_eq_productAt hnodup]

theorem dense_eq_ok {b columns : Buffer ℝ} (hnodup : qs.Nodup)
    (hqs : forall q, q ∈ qs -> q < n) (hn : n < wordBits) (hfew : qs.length < 59)
    (hb : b.size = twoPow n) (hcolumns : twoPow qs.length * twoPow qs.length ≤ columns.size) :
    dense qs columns b = .ok (Buffer.tabulate b.size
      (act qs (fun i j => columns.entry (i + twoPow qs.length * j)) b.entry)) := by
  rw [dense_eq_productAt hnodup hqs hn hfew hb hcolumns, funext (productAt_eq_act columns b)]

/-!
## Diagonals and phases
-/

variable {b : Buffer R}

theorem diagonal_eq_ok_iff {entries b' : Buffer R} :
    diagonal qs entries b = .ok b' ↔
      (b.size = 0 ∨ (forall q, q ∈ qs -> q < wordBits) ∧ qs.length ≤ wordBits ∧
        forall x, x < b.size -> gather qs x < entries.size) ∧
      b' = Buffer.tabulate b.size fun x => b.entry x * entries.entry (gather qs x) := by
  unfold diagonal
  by_cases hempty : b.size = 0
  · have htabulate : Buffer.tabulate b.size (fun x => b.entry x * entries.entry (gather qs x))
        = b := by
      apply Buffer.ext_entry
      · simp
      · intro x hx
        rw [Buffer.size_tabulate] at hx
        omega
    rw [if_pos hempty, htabulate]
    constructor
    · intro h
      cases h
      exact ⟨Or.inl hempty, rfl⟩
    · rintro ⟨_, rfl⟩
      rfl
  · rw [if_neg hempty]
    constructor
    · intro h
      rcases bind_eq_ok_iff.mp h with ⟨_, hword, h⟩
      rcases bind_eq_ok_iff.mp h with ⟨_, hlen, h⟩
      rcases bind_eq_ok_iff.mp h with ⟨_, hgather, h⟩
      cases h
      rw [addressable_eq_ok_iff] at hword
      rw [orCrash_eq_ok_iff, decide_eq_true_iff] at hlen
      rw [orCrash_eq_ok_iff, List.all_eq_true] at hgather
      exact ⟨Or.inr ⟨hword, hlen, fun x hx =>
        of_decide_eq_true (hgather x (List.mem_range.mpr hx))⟩, rfl⟩
    · rintro ⟨hempty' | ⟨hword, hlen, hgather⟩, rfl⟩
      · exact absurd hempty' hempty
      · have hall : ((List.range b.size).all fun x => gather qs x < entries.size) = true := by
          rw [List.all_eq_true]
          exact fun x hx => decide_eq_true (hgather x (List.mem_range.mp hx))
        rw [addressable_eq_ok_iff.mpr hword, ok_bind, orCrash_of_true (decide_eq_true hlen),
          ok_bind, orCrash_of_true hall]
        rfl

theorem diagonal_eq_ok {entries : Buffer R} (hqs : forall q, q ∈ qs -> q < wordBits)
    (hlen : qs.length ≤ wordBits) (hentries : twoPow qs.length ≤ entries.size) :
    diagonal qs entries b =
      .ok (Buffer.tabulate b.size fun x => b.entry x * entries.entry (gather qs x)) :=
  diagonal_eq_ok_iff.mpr ⟨Or.inr ⟨hqs, hlen, fun x _ =>
    Nat.lt_of_lt_of_le (gather_lt qs x) hentries⟩, rfl⟩

theorem phase_eq_ok (factor : Amplitude R) (hqs : forall q, q ∈ qs -> q < wordBits) :
    phase qs factor b = .ok (Buffer.tabulate b.size fun x =>
      if covers (bitMask qs) x then b.entry x * factor else b.entry x) := by
  unfold phase Checked.mask
  rw [addressable_eq_ok_iff.mpr hqs]
  rfl

/-!
## Controlled flips
-/

theorem controlled_eq_ok {controls : List Nat} {t : Nat}
    (f : Nat -> Amplitude R -> Amplitude R) (hnot : t ∉ controls)
    (hcontrols : forall q, q ∈ controls -> q < wordBits) (ht : t < n)
    (hn : n ≤ wordBits) (hb : b.size = twoPow n) :
    controlled (controls ++ [t]) f b = .ok (Buffer.tabulate b.size fun x =>
      if covers (bitMask controls) x then f x (b.entry (x ^^^ twoPow t))
      else b.entry x) := by
  have hcontains : controls.contains t = false := by
    simpa using hnot
  have hbit : (decide (twoPow t < b.size) || decide (b.size ≤ bitMask controls)) = true := by
    rw [hb, decide_eq_true (twoPow_lt_twoPow ht), Bool.true_or]
  unfold controlled Checked.mask
  rw [List.getLast?_concat]
  dsimp only
  rw [List.dropLast_concat, checkedShift_of_lt (by omega), ok_bind,
    addressable_eq_ok_iff.mpr hcontrols]
  change (if controls.contains t = true then _ else _) = _
  rw [hcontains, if_neg Bool.false_ne_true, orCrash_of_true hbit]
  rfl

theorem controlled_of_mem {controls : List Nat} {t : Nat}
    (f : Nat -> Amplitude R -> Amplitude R) (hmem : t ∈ controls)
    (hcontrols : forall q, q ∈ controls -> q < wordBits) :
    controlled (controls ++ [t]) f b = .ok b := by
  unfold controlled Checked.mask
  rw [List.getLast?_concat]
  dsimp only
  rw [List.dropLast_concat, checkedShift_of_lt (hcontrols t hmem), ok_bind,
    addressable_eq_ok_iff.mpr hcontrols]
  change (if controls.contains t = true then _ else _) = _
  rw [List.contains_iff_mem.mpr hmem, if_pos rfl]
  rfl

theorem exchange_eq_ok {p q : Nat} (hp : p < n) (hq : q < n) (hn : n ≤ wordBits)
    (hb : b.size = twoPow n) :
    exchange p q b = .ok (Buffer.tabulate b.size fun x =>
      if x.testBit p == x.testBit q then b.entry x
      else b.entry (x ^^^ twoPow p ^^^ twoPow q)) := by
  have hlow : ¬b.size ≤ twoPow p := by
    rw [hb, not_le]
    exact twoPow_lt_twoPow hp
  have hhigh : twoPow q < b.size := by
    rw [hb]
    exact twoPow_lt_twoPow hq
  unfold exchange
  rw [checkedShift_of_lt (by omega), ok_bind, checkedShift_of_lt (by omega), ok_bind,
    if_neg hlow, orCrash_of_true (decide_eq_true hhigh)]
  rfl

end Kernel

end MixedState
