import MixedState.Proofs.Exact
import MixedState.Proofs.Density.Operators
import MixedState.Proofs.Machine.Operators

/-!
# Maps of channels

The superoperator that is built from Kraus matrices has the entries of their channel,
and the map of a reset is the channel of the matrices `|0⟩⟨s|`.
-/

namespace MixedState

variable {d : Nat}

namespace Mat

theorem entry_columns {u : Mat ℝ} {r c : Nat} (hr : r < u.rows) (hc : c < u.cols) :
    u.columns.entry (r + u.rows * c) = u.entry r c := by
  have hlt : r + u.rows * c < u.cols * u.rows := by
    have hcolumn : (c + 1) * u.rows ≤ u.cols * u.rows := Nat.mul_le_mul_right u.rows hc
    rw [Nat.succ_mul, Nat.mul_comm c] at hcolumn
    omega
  unfold columns
  rw [Buffer.entry_tabulate_of_lt _ hlt, add_mul_mod hr, add_mul_div hr]

theorem entry_conj (u : Mat ℝ) (r c : Nat) : u.conj.entry r c = (u.entry r c).conj :=
  Buffer.entry_conj u.entries (r * u.cols + c)

end Mat

/-!
## Kraus matrices
-/

theorem entry_kron {k : Mat ℝ} (hrows : k.rows = d) (hcols : k.cols = d) {i j a b : Nat}
    (hi : i < d) (hj : j < d) (ha : a < d) (hb : b < d) :
    (k.conj.kron k).entry (i + d * j) (a + d * b) = (k.entry j b).conj * k.entry i a := by
  unfold Mat.kron
  change (Mat.ofFn (k.rows * k.rows) (k.cols * k.cols) _).entry _ _ = _
  rw [hrows, hcols, Mat.entry_ofFn _ (add_mul_lt hi hj) (add_mul_lt ha hb), Mat.entry_conj,
    add_mul_mod hi, add_mul_div hi, add_mul_mod ha, add_mul_div ha]

theorem addStretched_eq_ok {s k t : Mat ℝ} (hrows : s.rows = k.rows) (hcols : s.cols = k.cols)
    (h : s.addStretched k = .ok t) :
    t.rows = s.rows ∧ t.cols = s.cols ∧
      forall r c, r < s.rows -> c < s.cols -> t.entry r c = s.entry r c + k.entry r c := by
  unfold Mat.addStretched at h
  split at h
  · cases h
    refine ⟨rfl, rfl, ?_⟩
    intro r c hr hc
    rw [Mat.entry_ofFn _ hr hc]
    congr 2
    · split
      · next hone =>
          have hrowsOne : k.rows = 1 := by simpa using hone
          omega
      · rfl
    · split
      · next hone =>
          have hcolsOne : k.cols = 1 := by simpa using hone
          omega
      · rfl
  · cases h

theorem foldlM_addStretched {operators : List (Mat ℝ)} {s t : Mat ℝ}
    (hoperators : forall k, k ∈ operators -> k.rows = d ∧ k.cols = d)
    (hrows : s.rows = d * d) (hcols : s.cols = d * d)
    (h : operators.foldlM (fun sum (k : Mat ℝ) => sum.addStretched (k.conj.kron k)) s = .ok t) :
    t.rows = d * d ∧ t.cols = d * d ∧
      forall i j a b, i < d -> j < d -> a < d -> b < d ->
        t.entry (i + d * j) (a + d * b) = s.entry (i + d * j) (a + d * b) +
          (operators.map fun k => (k.entry j b).conj * k.entry i a).sum := by
  -- What is summed so far gains the entries of the rest.
  induction operators generalizing s with
  | nil =>
      cases h
      refine ⟨hrows, hcols, ?_⟩
      intro i j a b _ _ _ _
      rw [List.map_nil, List.sum_nil, add_zero]
  | cons k rest ih =>
      rw [List.foldlM_cons] at h
      rcases bind_eq_ok_iff.mp h with ⟨s', hs', h⟩
      rcases List.forall_mem_cons.mp hoperators with ⟨⟨hkrows, hkcols⟩, hrest⟩
      have hkron : (k.conj.kron k).rows = d * d ∧ (k.conj.kron k).cols = d * d := by
        change k.rows * k.rows = d * d ∧ k.cols * k.cols = d * d
        rw [hkrows, hkcols]
        exact ⟨rfl, rfl⟩
      rcases addStretched_eq_ok (hrows.trans hkron.1.symm) (hcols.trans hkron.2.symm) hs' with
        ⟨hrows', hcols', hentries⟩
      rcases ih hrest (hrows'.trans hrows) (hcols'.trans hcols) h with ⟨htrows, htcols, htentries⟩
      refine ⟨htrows, htcols, ?_⟩
      intro i j a b hi hj ha hb
      rw [htentries i j a b hi hj ha hb,
        hentries _ _ (by rw [hrows]; exact add_mul_lt hi hj)
          (by rw [hcols]; exact add_mul_lt ha hb),
        entry_kron hkrows hkcols hi hj ha hb, List.map_cons, List.sum_cons, add_assoc]

theorem isSuperop_krausMap {operators : List (Mat ℝ)} {map : Mat ℝ} (hne : operators ≠ [])
    (hoperators : forall k, k ∈ operators -> k.rows = d ∧ k.cols = d)
    (h : krausMap operators = .ok map) :
    map.rows = d * d ∧ map.cols = d * d ∧
      Kernel.IsSuperop d (operators.map Mat.entry) (Kernel.ofColumns (d * d) map.columns) := by
  cases operators with
  | nil =>
      exact absurd rfl hne
  | cons k rest =>
      have hk := hoperators k List.mem_cons_self
      unfold krausMap at h
      dsimp only at h
      rw [hk.1] at h
      rcases bind_eq_ok_iff.mp h with ⟨square, hsquare, h⟩
      rcases checkedMul_eq_ok_iff.mp hsquare with ⟨_, rfl⟩
      rcases bind_eq_ok_iff.mp h with ⟨_, _, h⟩
      rcases bind_eq_ok_iff.mp h with ⟨_, _, h⟩
      rcases foldlM_addStretched hoperators rfl rfl h with ⟨hrows, hcols, hentries⟩
      refine ⟨hrows, hcols, ?_⟩
      intro i j a b hi hj ha hb
      have hrow := add_mul_lt hi hj
      have hcolumn := add_mul_lt ha hb
      have hcolumns := Mat.entry_columns (u := map) (r := i + d * j) (c := a + d * b)
        (by rw [hrows]; exact hrow) (by rw [hcols]; exact hcolumn)
      rw [hrows] at hcolumns
      change map.columns.entry (i + d * j + d * d * (a + d * b)) = _
      rw [hcolumns, hentries i j a b hi hj ha hb, Mat.entry_ofFn _ hrow hcolumn, zero_add,
        List.map_map]
      rfl

/-!
## Resets
-/

theorem sum_map_range {M : Type} [AddCommMonoid M] (d : Nat) (f : Nat -> M) :
    ((List.range d).map f).sum = ∑ s ∈ Finset.range d, f s :=
  rfl

noncomputable def resetOperators (d : Nat) : List Entries :=
  (List.range d).map fun s r a => if r = 0 ∧ a = s then 1 else 0

theorem isComplete_resetOperators (d : Nat) : IsComplete d (resetOperators d) := by
  intro a b ha _
  have hpos : 0 < d := Nat.lt_of_le_of_lt (Nat.zero_le a) ha
  have hgram : forall s, gram d (fun r a => if r = 0 ∧ a = s then 1 else 0) a b =
      if s = a then (if a = b then 1 else 0) else 0 := by
    intro s
    rw [← sum_range_single hpos fun _ =>
      if s = a then (if a = b then (1 : Amplitude ℝ) else 0) else 0]
    apply Finset.sum_congr rfl
    intro r _
    by_cases hr : r = 0
    · by_cases hs : s = a
      · by_cases hab : a = b
        · simp [hr, hs, hab]
        · have hba : ¬b = a := fun h => hab h.symm
          simp [hr, hs, hab, hba]
      · have has : ¬a = s := fun h => hs h.symm
        simp [hr, hs, has]
    · simp [hr]
  unfold resetOperators
  rw [List.map_map, sum_map_range]
  simp only [Function.comp_apply, hgram]
  exact sum_range_single ha fun _ => if a = b then (1 : Amplitude ℝ) else 0

theorem isSuperop_resetMap {k : Nat} {columns : Buffer ℝ} (h : resetMap k = .ok columns) :
    columns.size = twoPow (2 * k) * twoPow (2 * k) ∧
      Kernel.IsSuperop (twoPow k) (resetOperators (twoPow k))
        (Kernel.ofColumns (twoPow k * twoPow k) columns) := by
  rcases Machine.resetMap_eq_ok_iff.mp h with ⟨_, rfl⟩
  refine ⟨by rw [Buffer.size_tabulate, twoPow_two_mul], ?_⟩
  generalize twoPow k = d
  intro i j a b hi hj ha hb
  have hrow := add_mul_lt hi hj
  have hcolumn := add_mul_lt ha hb
  have hzero : i + d * j = 0 ↔ i = 0 ∧ j = 0 := by
    constructor
    · intro hsum
      have hi0 : i = 0 := by omega
      have hj0 : d * j = 0 := by omega
      rcases Nat.mul_eq_zero.mp hj0 with hd | hj0
      · omega
      · exact ⟨hi0, hj0⟩
    · rintro ⟨rfl, rfl⟩
      rfl
  unfold Kernel.ofColumns
  rw [Buffer.entry_tabulate_of_lt _ (add_mul_lt hrow hcolumn), add_mul_mod hrow,
    add_mul_div hrow, add_mul_mod ha, add_mul_div ha]
  unfold resetOperators
  rw [List.map_map, sum_map_range]
  have hterm : forall s, (fun k : Entries => (k j b).conj * k i a)
      (fun r a => if r = 0 ∧ a = s then 1 else 0) =
        if s = a then (if i + d * j = 0 ∧ a = b then 1 else 0) else 0 := by
    intro s
    simp only [hzero]
    by_cases hs : s = a
    · by_cases hab : a = b
      · by_cases hi0 : i = 0
        · simp [hs, hab, hi0, Amplitude.conj_ite]
        · simp [hi0]
      · have hba : ¬b = a := fun h => hab h.symm
        simp [hs, hab, hba]
    · have has : ¬a = s := fun h => hs h.symm
      simp [hs, has]
  simp only [Function.comp_apply, hterm]
  exact (sum_range_single ha fun _ =>
    if i + d * j = 0 ∧ a = b then (1 : Amplitude ℝ) else 0).symm

/-!
## Superoperators in memory
-/

section Superoperators

variable {α : Type} {k : Nat} {f : Nat -> Nat -> Outcome α}

theorem superop_cells (k : Nat) :
    twoPow k * twoPow k * (twoPow k * twoPow k) = twoPow (4 * k) := by
  rw [← twoPow_add, ← twoPow_add]
  congr 1
  omega

theorem superop_of_lt (hk : k < 15) :
    (do
      let square ← checkedMul (twoPow k) (twoPow k)
      let count ← checkedMul square square
      allocate 16 count
      f square count) = f (twoPow k * twoPow k) (twoPow k * twoPow k * (twoPow k * twoPow k)) := by
  have hcells := superop_cells k
  have hword : twoPow (4 * k) < wordSize := by
    rw [Basis.wordSize_eq]
    exact twoPow_lt_twoPow (by omega)
  have hpos := Nat.mul_pos (twoPow_pos k) (twoPow_pos k)
  have hsquare : twoPow k * twoPow k ≤ twoPow k * twoPow k * (twoPow k * twoPow k) :=
    Nat.le_mul_of_pos_right _ hpos
  rw [checkedMul_of_lt (by omega), ok_bind, checkedMul_of_lt (by omega), ok_bind, hcells,
    allocate_sixteen_of_lt (by omega), ok_bind]

theorem superop_of_le (hk : 15 ≤ k) :
    (do
      let square ← checkedMul (twoPow k) (twoPow k)
      let count ← checkedMul square square
      allocate 16 count
      f square count) = crash := by
  by_cases hsquare : twoPow k * twoPow k < wordSize
  · rw [checkedMul_of_lt hsquare, ok_bind]
    by_cases hcount : twoPow k * twoPow k * (twoPow k * twoPow k) < wordSize
    · rw [checkedMul_of_lt hcount, ok_bind, superop_cells, allocate_sixteen_of_le (by omega)]
      rfl
    · unfold checkedMul
      rw [if_neg hcount]
      rfl
  · unfold checkedMul
    rw [if_neg hsquare]
    rfl

theorem exists_foldlM_addStretched {operators : List (Mat ℝ)} {s : Mat ℝ} {d : Nat}
    (hoperators : forall u, u ∈ operators -> u.rows = d ∧ u.cols = d)
    (hrows : s.rows = d * d) (hcols : s.cols = d * d) :
    exists t, operators.foldlM (fun sum (u : Mat ℝ) => sum.addStretched (u.conj.kron u)) s =
      .ok t := by
  induction operators generalizing s with
  | nil =>
      exact ⟨s, rfl⟩
  | cons u rest ih =>
      rcases List.forall_mem_cons.mp hoperators with ⟨⟨hurows, hucols⟩, hrest⟩
      have hfits : (((u.conj.kron u).rows == s.rows || (u.conj.kron u).rows == 1) &&
          ((u.conj.kron u).cols == s.cols || (u.conj.kron u).cols == 1)) = true := by
        change ((u.rows * u.rows == s.rows || _) && (u.cols * u.cols == s.cols || _)) = true
        rw [hrows, hcols, hurows, hucols, BEq.rfl, Bool.true_or, Bool.true_or]
        rfl
      rw [List.foldlM_cons]
      unfold Mat.addStretched
      rw [if_pos hfits, ok_bind]
      exact ih hrest hrows hcols

theorem lt_of_fits (h : twoPow (4 * k) * 16 < bufferLimit) : k < 15 := by
  have hfew := twoPow_mul_sixteen_lt_iff.mp h
  omega

theorem exists_krausMap {operators : List (Mat ℝ)} (hk : k < 15) (hne : operators ≠ [])
    (hshapes : forall u, u ∈ operators -> u.rows = twoPow k ∧ u.cols = twoPow k) :
    exists map, krausMap operators = .ok map := by
  rcases List.exists_cons_of_ne_nil hne with ⟨u, rest, rfl⟩
  unfold krausMap
  dsimp only
  rw [(hshapes u List.mem_cons_self).1, superop_of_lt hk]
  exact exists_foldlM_addStretched hshapes rfl rfl

theorem krausMap_of_le {operators : List (Mat ℝ)} (hk : 15 ≤ k) (hne : operators ≠ [])
    (hshapes : forall u, u ∈ operators -> u.rows = twoPow k ∧ u.cols = twoPow k) :
    krausMap operators = crash := by
  rcases List.exists_cons_of_ne_nil hne with ⟨u, rest, rfl⟩
  unfold krausMap
  dsimp only
  rw [(hshapes u List.mem_cons_self).1]
  exact superop_of_le hk

theorem exists_resetMap (hk : k < 15) : exists columns : Buffer ℝ, resetMap k = .ok columns := by
  unfold resetMap
  rw [checkedShift_of_lt (by unfold wordBits; omega), ok_bind]
  exact ⟨_, superop_of_lt hk⟩

theorem resetMap_of_le (hk : 15 ≤ k) : (resetMap k : Outcome (Buffer ℝ)) = crash := by
  unfold resetMap
  by_cases hword : k < wordBits
  · rw [checkedShift_of_lt hword, ok_bind]
    exact superop_of_le hk
  · unfold checkedShift
    rw [if_neg hword]
    rfl

end Superoperators

end MixedState
