import MixedState.Density.Sampling
import MixedState.Proofs.Exact

/-!
# Sampled places have weight

A variate selects the first place whose running sum exceeds it.  Where no weight is
negative and one is positive, the weight of that place is positive.  Where some are negative
the search still ends between a place that satisfies its condition and one that does not.
-/

namespace MixedState

/-!
## Halving
-/

structure TurnsAt (p : Nat -> Bool) (n k : Nat) : Prop where
  le : k ≤ n
  before : forall i, i + 1 = k -> p i = true
  after : k < n -> p k = false

/-- A range that begins at the first of all places or at one that satisfies the condition,
and that reaches to the end, or has a place that fails right behind it or as its last. -/
structure Brackets (p : Nat -> Bool) (n size base : Nat) : Prop where
  nonempty : 0 < size
  inside : base + size ≤ n
  first : base = 0 ∨ p base = true
  last : base + size = n ∨ p (base + size) = false ∨ p (base + size - 1) = false

/-- The half that is kept brackets a turn again.  Where the middle fails and the size is odd,
the middle is the last place of that half. -/
theorem Brackets.narrow {p : Nat -> Bool} {n size base : Nat} (h : Brackets p n size base) :
    Brackets p n 1 (narrow p size base) := by
  have hinside := h.inside
  fun_induction MixedState.narrow p size base with
  | case1 size base hmany middle ih =>
      by_cases hmiddle : p middle = true
      · have hend : middle + (size - size / 2) = base + size := by omega
        rw [dif_pos hmiddle, hend] at ih
        rw [if_pos hmiddle]
        refine ih ⟨by omega, hend ▸ hinside, Or.inr hmiddle, ?_⟩ hinside
        rw [hend]
        exact h.last
      · have hfails : p middle = false := Bool.eq_false_iff.mpr hmiddle
        rw [dif_neg hmiddle] at ih
        rw [if_neg hmiddle]
        refine ih ⟨by omega, by omega, h.first, Or.inr ?_⟩ (by omega)
        rcases Nat.even_or_odd' size with ⟨half, rfl | rfl⟩
        · have hmeet : base + (2 * half - 2 * half / 2) = middle := by omega
          rw [hmeet]
          exact Or.inl hfails
        · have hmeet : base + (2 * half + 1 - (2 * half + 1) / 2) - 1 = middle := by omega
          rw [hmeet]
          exact Or.inr hfails
  | case2 size base hone =>
      have hsize : size = 1 := Nat.le_antisymm (Nat.le_of_not_lt hone) h.nonempty
      rw [hsize] at h
      exact h

/-- Whatever the condition, the search ends where it ceases to hold. -/
theorem partitionPoint_turnsAt (p : Nat -> Bool) (n : Nat) : TurnsAt p n (partitionPoint p n) := by
  unfold partitionPoint
  by_cases hn : n = 0
  · rw [if_pos hn, hn]
    exact ⟨Nat.le_refl 0, fun i hi => absurd hi (Nat.succ_ne_zero i),
      fun hlt => absurd hlt (Nat.lt_irrefl 0)⟩
  · have hstart : Brackets p n n 0 :=
      ⟨Nat.pos_of_ne_zero hn, by omega, Or.inl rfl, Or.inl (Nat.zero_add n)⟩
    have hfound := hstart.narrow
    have hinside := hfound.inside
    rw [if_neg hn]
    dsimp only
    by_cases hbase : p (narrow p n 0) = true
    · rw [if_pos hbase]
      refine ⟨hinside, ?_, ?_⟩
      · intro i hi
        obtain rfl := Nat.succ_injective hi
        exact hbase
      · intro hlt
        rcases hfound.last with hend | hend | hend
        · exact absurd hend (Nat.ne_of_lt hlt)
        · exact hend
        · rw [Nat.add_sub_cancel, hbase] at hend
          cases hend
    · rw [if_neg hbase]
      refine ⟨by omega, ?_, fun _ => Bool.eq_false_iff.mpr hbase⟩
      intro i hi
      rcases hfound.first with hzero | htrue
      · omega
      · exact absurd htrue hbase

def IsLeading (p : Nat -> Bool) (n : Nat) : Prop :=
  forall i j, i ≤ j -> j < n -> p j = true -> p i = true

theorem partitionPoint_spec {p : Nat -> Bool} {n : Nat} (hp : IsLeading p n) :
    partitionPoint p n ≤ n ∧ (forall i, i < partitionPoint p n -> p i = true) ∧
      forall i, partitionPoint p n ≤ i -> i < n -> p i = false := by
  have hturn := partitionPoint_turnsAt p n
  refine ⟨hturn.le, ?_, ?_⟩
  · intro i hi
    have hle := hturn.le
    exact hp i (partitionPoint p n - 1) (by omega) (by omega) (hturn.before _ (by omega))
  · intro i hi hin
    apply Bool.eq_false_iff.mpr
    intro htrue
    have hfails := hturn.after (by omega)
    rw [hp _ i hi hin htrue] at hfails
    cases hfails

/-!
## Running sums
-/

variable {R : Type} [Scalar R]

/-- No variate is negative; a weight that is not negative does not lower a sum, and one that
is not positive either does not raise it.  This holds of exact reals, and of doubles as they
are rounded. -/
structure Scalar.Accumulates (R : Type) [Scalar R] : Prop where
  draw_nonneg : forall n, Scalar.le (0 : R) (unitFraction n) = true
  le_of_add_le : forall s w v : R, Scalar.le 0 w = true -> Scalar.le (s + w) v = true ->
    Scalar.le s v = true
  add_le_of_null : forall s w v : R, Scalar.le 0 w = true -> Scalar.lt 0 w = false ->
    Scalar.le s v = true -> Scalar.le (s + w) v = true

theorem Scalar.accumulates_real : Scalar.Accumulates ℝ where
  draw_nonneg n := by
    apply decide_eq_true
    exact div_nonneg (Nat.cast_nonneg n) (Nat.cast_nonneg _)
  le_of_add_le s w v hw hsum := by
    have hw := of_decide_eq_true hw
    have hsum := of_decide_eq_true hsum
    apply decide_eq_true
    linarith
  add_le_of_null s w v hw hnull hs := by
    have hw := of_decide_eq_true hw
    have hnull := of_decide_eq_false hnull
    have hs := of_decide_eq_true hs
    apply decide_eq_true
    linarith

variable {s v : R} {ws : List R}

@[simp] theorem length_partialSums (s : R) (ws : List R) :
    (partialSums s ws).length = ws.length := by
  induction ws generalizing s with
  | nil =>
      rfl
  | cons w rest ih =>
      change (partialSums (s + w) rest).length + 1 = rest.length + 1
      rw [ih]

theorem getD_partialSums_zero {w : R} {rest : List R} (d : R) :
    (partialSums s (w :: rest)).getD 0 d = s + w :=
  rfl

theorem getD_partialSums_cons_succ {w : R} {rest : List R} (i : Nat) (d : R) :
    (partialSums s (w :: rest)).getD (i + 1) d = (partialSums (s + w) rest).getD i d :=
  rfl

theorem getD_partialSums_succ {i : Nat} (hi : i + 1 < ws.length) (d : R) :
    (partialSums s ws).getD (i + 1) d = (partialSums s ws).getD i d + ws.getD (i + 1) d := by
  induction ws generalizing s i with
  | nil =>
      exact absurd hi (Nat.not_lt_zero _)
  | cons w rest ih =>
      cases i with
      | zero =>
          cases rest with
          | nil =>
              exact absurd hi (Nat.lt_irrefl _)
          | cons w' rest =>
              rfl
      | succ i =>
          rw [getD_partialSums_cons_succ, getD_partialSums_cons_succ,
            ih (Nat.lt_of_succ_lt_succ hi)]
          rfl

theorem Scalar.Accumulates.isLeading (laws : Scalar.Accumulates R) (v : R)
    (hnonneg : forall w, w ∈ ws -> Scalar.le 0 w = true) :
    IsLeading (fun i => Scalar.le ((partialSums s ws).getD i 0) v) ws.length := by
  intro i j hij hj hreached
  induction j, hij using Nat.le_induction with
  | base =>
      exact hreached
  | succ j hij ih =>
      apply ih (Nat.lt_of_succ_lt hj)
      dsimp only at hreached ⊢
      rw [getD_partialSums_succ hj] at hreached
      apply laws.le_of_add_le _ _ _ _ hreached
      rw [List.getD_eq_getElem?_getD, List.getElem?_eq_getElem hj]
      exact hnonneg _ (List.getElem_mem hj)

theorem Scalar.Accumulates.lt_of_first (laws : Scalar.Accumulates R) {i : Nat}
    (hnonneg : forall w, w ∈ ws -> Scalar.le 0 w = true) (hstart : Scalar.le s v = true)
    (hi : i < ws.length)
    (hbelow : forall j, j < i -> Scalar.le ((partialSums s ws).getD j 0) v = true)
    (habove : Scalar.le ((partialSums s ws).getD i 0) v = false) :
    Scalar.lt 0 (ws.getD i 0) = true := by
  induction ws generalizing s i with
  | nil =>
      exact absurd hi (Nat.not_lt_zero i)
  | cons w rest ih =>
      rcases List.forall_mem_cons.mp hnonneg with ⟨hw, hrest⟩
      cases i with
      | zero =>
          apply Bool.eq_true_of_not_eq_false
          intro hnull
          have hreached := laws.add_le_of_null s w v hw hnull hstart
          rw [getD_partialSums_zero, hreached] at habove
          cases habove
      | succ i =>
          apply ih hrest (hbelow 0 (Nat.zero_lt_succ i)) (Nat.lt_of_succ_lt_succ hi)
          · intro j hj
            exact hbelow (j + 1) (Nat.succ_lt_succ hj)
          · exact habove

/-!
## Selected places
-/

theorem lastPositive_lt (hne : ws ≠ []) : lastPositive ws < ws.length := by
  unfold lastPositive
  split
  · next x i hlast =>
      have hmem := (List.mem_filter.mp (List.mem_of_getLast? hlast)).1
      have hlt := (List.mem_zipIdx hmem).2.1
      rw [Nat.zero_add] at hlt
      exact hlt
  · exact Nat.sub_one_lt (List.length_pos_iff.mpr hne).ne'

theorem lt_lastPositive {w : R} (hw : w ∈ ws) (hpos : Scalar.lt 0 w = true) :
    Scalar.lt 0 (ws.getD (lastPositive ws) 0) = true := by
  unfold lastPositive
  split
  · next x i hlast =>
      rcases List.mem_filter.mp (List.mem_of_getLast? hlast) with ⟨hmem, hx⟩
      have hget := List.mem_zipIdx_iff_getElem?.mp hmem
      rw [List.getD_eq_getElem?_getD, hget]
      exact hx
  · next hlast =>
      rcases List.getElem_of_mem hw with ⟨i, hi, rfl⟩
      have hnone := List.filter_eq_nil_iff.mp (List.getLast?_eq_none_iff.mp hlast)
      have hmem : (ws[i], i) ∈ ws.zipIdx :=
        List.mem_zipIdx_iff_getElem?.mpr (List.getElem?_eq_getElem hi)
      exact absurd hpos (hnone _ hmem)

theorem le_lastPositive {i : Nat} (hi : i < ws.length)
    (hpos : Scalar.lt 0 (ws.getD i 0) = true) : i ≤ lastPositive ws := by
  have hplace : (ws.getD i 0, i) ∈ ws.zipIdx := by
    rw [List.mem_zipIdx_iff_getElem?, List.getD_eq_getElem?_getD, List.getElem?_eq_getElem hi]
    rfl
  have hascending : ws.zipIdx.Pairwise fun a b => a.2 < b.2 := by
    rw [← List.pairwise_map (f := Prod.snd) (R := (· < ·)), List.zipIdx_map_snd]
    exact List.pairwise_lt_range'
  unfold lastPositive
  split
  · next x last hlast =>
      rcases List.getLast?_eq_some_iff.mp hlast with ⟨earlier, hsplit⟩
      have hmem : (ws.getD i 0, i) ∈ earlier ++ [(x, last)] := by
        rw [← hsplit]
        exact List.mem_filter.mpr ⟨hplace, hpos⟩
      have hsorted : (earlier ++ [(x, last)]).Pairwise fun a b => a.2 < b.2 := by
        rw [← hsplit]
        exact hascending.filter _
      rcases List.mem_append.mp hmem with hmem | hmem
      · have hlt := (List.pairwise_append.mp hsorted).2.2 _ hmem (x, last)
          (List.mem_singleton_self _)
        exact Nat.le_of_lt hlt
      · exact Nat.le_of_eq (congrArg Prod.snd (List.mem_singleton.mp hmem))
  · next hlast =>
      have hnone := List.filter_eq_nil_iff.mp (List.getLast?_eq_none_iff.mp hlast)
      exact absurd hpos (hnone _ hplace)

theorem selectPlace_lt (hne : ws ≠ []) (sums : Array R) (v : R) :
    selectPlace (lastPositive ws) sums v < ws.length :=
  Nat.lt_of_le_of_lt (Nat.min_le_right _ _) (lastPositive_lt hne)

theorem Scalar.Accumulates.lt_selectPlace (laws : Scalar.Accumulates R) {w : R}
    (hnonneg : forall w, w ∈ ws -> Scalar.le 0 w = true) (hw : w ∈ ws)
    (hpos : Scalar.lt 0 w = true) (draw : Nat) :
    Scalar.lt 0 (ws.getD (selectPlace (lastPositive ws) (partialSums 0 ws).toArray
      (unitFraction draw)) 0) = true := by
  have hsums : forall i, (partialSums 0 ws).toArray.getD i 0 = (partialSums 0 ws).getD i 0 := by
    intro i
    simp [Array.getD_eq_getD_getElem?, List.getD_eq_getElem?_getD]
  unfold selectPlace
  simp only [hsums, List.size_toArray, length_partialSums]
  rcases partitionPoint_spec (laws.isLeading (unitFraction draw) hnonneg) with
    ⟨_, hbelow, habove⟩
  rcases Nat.le_total (lastPositive ws) (partitionPoint (fun i =>
    Scalar.le ((partialSums 0 ws).getD i 0) (unitFraction draw)) ws.length) with hle | hle
  · rw [Nat.min_eq_right hle]
    exact lt_lastPositive hw hpos
  · have hlt := Nat.lt_of_le_of_lt hle (lastPositive_lt (List.ne_nil_of_mem hw))
    rw [Nat.min_eq_left hle]
    exact laws.lt_of_first hnonneg (laws.draw_nonneg draw) hlt hbelow
      (habove _ (Nat.le_refl _) hlt)

end MixedState
