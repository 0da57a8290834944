import Mathlib.Data.List.Sort
import MixedState.Proofs.Basis.Blocks
import MixedState.Proofs.Basis.Sides

/-!
# The blocks of a register

Inserting zeros at ascending positions numbers the blocks of the indices that differ at
these positions only.  Inserted into a row and into the same column, the zeros stand at the
row bits and at the column bits.
-/

namespace MixedState
namespace Basis

/-!
## Insertions
-/

theorem insertZero_lt {q x n : Nat} (hn : n < 63) (hx : x < twoPow n) :
    insertZero q x < twoPow (n + 1) := by
  have hword : x < twoPow 63 := lt_of_lt_of_le hx (twoPow_le_twoPow (Nat.le_of_lt hn))
  rw [lt_twoPow_iff] at hx ⊢
  intro i hi
  rw [testBit_insertZero i hword]
  split
  · exact hx i (by omega)
  · split
    · rfl
    · exact hx (i - 1) (by omega)

theorem removeBit_insertZero {x : Nat} (q : Nat) (hx : x < twoPow 63) :
    removeBit q (insertZero q x) = x := by
  apply Nat.eq_of_testBit_eq
  intro i
  rw [testBit_removeBit]
  by_cases hlt : i < q
  · rw [if_pos hlt, testBit_insertZero i hx, if_pos hlt]
  · rw [if_neg hlt, testBit_insertZero (i + 1) hx, if_neg (by omega), if_neg (by omega),
      Nat.add_sub_cancel]

theorem insertZero_cell_row {q m r c : Nat} (hq : q ≤ m) (hm : m < 63) (hr : r < twoPow m)
    (hword : cell m r c < twoPow 63) :
    insertZero q (cell m r c) = cell (m + 1) (insertZero q r) c := by
  have hrow : r < twoPow 63 := lt_of_lt_of_le hr (twoPow_le_twoPow (Nat.le_of_lt hm))
  apply Nat.eq_of_testBit_eq
  intro i
  rw [testBit_insertZero i hword, testBit_cell c i (insertZero_lt hm hr),
    testBit_insertZero i hrow]
  by_cases hlt : i < q
  · rw [if_pos hlt, testBit_cell_row c hr (by omega), if_pos (by omega), if_pos hlt]
  · by_cases heq : i = q
    · rw [if_neg hlt, if_pos heq, if_pos (by omega), if_neg hlt, if_pos heq]
    · rw [if_neg hlt, if_neg heq, testBit_cell c (i - 1) hr]
      by_cases hrows : i - 1 < m
      · rw [if_pos hrows, if_pos (by omega), if_neg hlt, if_neg heq]
      · rw [if_neg hrows, if_neg (by omega)]
        congr 1
        omega

theorem insertZero_cell_column {q n r c : Nat} (hr : r < twoPow n) (hc : c < twoPow 63)
    (hword : cell n r c < twoPow 63) :
    insertZero (q + n) (cell n r c) = cell n r (insertZero q c) := by
  apply Nat.eq_of_testBit_eq
  intro i
  rw [testBit_insertZero i hword, testBit_cell (insertZero q c) i hr,
    testBit_insertZero (i - n) hc]
  by_cases hrows : i < n
  · rw [if_pos (by omega), testBit_cell_row c hr hrows, if_pos hrows]
  · rw [if_neg hrows]
    by_cases hlt : i < q + n
    · rw [if_pos hlt, testBit_cell c i hr, if_neg hrows, if_pos (by omega)]
    · by_cases heq : i = q + n
      · rw [if_neg hlt, if_pos heq, if_neg (by omega), if_pos (by omega)]
      · rw [if_neg hlt, if_neg heq, testBit_cell c (i - 1) hr, if_neg (by omega),
          if_neg (by omega), if_neg (by omega)]
        congr 1
        omega

/-!
## Several zeros
-/

theorem spread_append (ps qs : List Nat) (x : Nat) :
    spread (ps ++ qs) x = spread qs (spread ps x) :=
  List.foldl_append

theorem spread_lt {qs : List Nat} {x n : Nat} (hn : n + qs.length ≤ 63) (hx : x < twoPow n) :
    spread qs x < twoPow (n + qs.length) := by
  induction qs generalizing x n with
  | nil =>
      exact hx
  | cons q rest ih =>
      rw [List.length_cons] at hn
      have hrest := ih (by omega) (insertZero_lt (q := q) (by omega) hx)
      rw [List.length_cons, Nat.add_comm rest.length 1, ← Nat.add_assoc]
      exact hrest

theorem spread_sorted_lt {qs : List Nat} {t n : Nat} (hlen : qs.length ≤ n) (hn : n ≤ 63)
    (ht : t < twoPow (n - qs.length)) : spread (sorted qs) t < twoPow n := by
  have hroom : n - qs.length + (sorted qs).length = n := by
    rw [length_sorted]
    omega
  have hlt : spread (sorted qs) t < twoPow (n - qs.length + (sorted qs).length) :=
    spread_lt (by omega) ht
  rw [hroom] at hlt
  exact hlt

theorem squeeze_spread {qs : List Nat} {x n : Nat} (hn : n + qs.length ≤ 63)
    (hx : x < twoPow n) : squeeze qs (spread qs x) = x := by
  induction qs generalizing x n with
  | nil =>
      rfl
  | cons q rest ih =>
      rw [List.length_cons] at hn
      have hword : x < twoPow 63 := lt_of_lt_of_le hx (twoPow_le_twoPow (by omega))
      rw [spread_cons, squeeze_cons, ih (n := n + 1) (by omega) (insertZero_lt (by omega) hx),
        removeBit_insertZero q hword]

theorem testBit_spread_of_lt {qs : List Nat} {x n i : Nat} (hn : n + qs.length ≤ 63)
    (hx : x < twoPow n) (hi : forall q, q ∈ qs -> i < q) :
    (spread qs x).testBit i = x.testBit i := by
  induction qs generalizing x n with
  | nil =>
      rfl
  | cons q rest ih =>
      rw [List.length_cons] at hn
      have hword : x < twoPow 63 := lt_of_lt_of_le hx (twoPow_le_twoPow (by omega))
      rw [spread_cons, ih (n := n + 1) (by omega) (insertZero_lt (by omega) hx)
        (fun p hp => hi p (List.mem_cons_of_mem q hp)), testBit_insertZero i hword,
        if_pos (hi q List.mem_cons_self)]

theorem testBit_spread_of_mem {qs : List Nat} {x n q : Nat} (hn : n + qs.length ≤ 63)
    (hx : x < twoPow n) (hsorted : qs.Pairwise (· < ·)) (hq : q ∈ qs) :
    (spread qs x).testBit q = false := by
  induction qs generalizing x n with
  | nil =>
      exact absurd hq List.not_mem_nil
  | cons p rest ih =>
      rw [List.length_cons] at hn
      rw [List.pairwise_cons] at hsorted
      have hword : x < twoPow 63 := lt_of_lt_of_le hx (twoPow_le_twoPow (by omega))
      have hinsert : insertZero p x < twoPow (n + 1) := insertZero_lt (by omega) hx
      rw [spread_cons]
      rcases List.mem_cons.mp hq with rfl | hq
      · rw [testBit_spread_of_lt (n := n + 1) (by omega) hinsert hsorted.1,
          testBit_insertZero q hword, if_neg (Nat.lt_irrefl q), if_pos rfl]
      · exact ih (n := n + 1) (by omega) hinsert hsorted.2 hq

/-!
## Rows and columns
-/

theorem cell_lt_of_add_le {m p k r c : Nat} (hr : r < twoPow m) (hc : c < twoPow p)
    (h : m + p ≤ k) : cell m r c < twoPow k := by
  rw [lt_twoPow_iff]
  intro i hi
  rw [testBit_cell c i hr, if_neg (by omega)]
  exact (lt_twoPow_iff c p).mp hc (i - m) (by omega)

theorem spread_cell_rows {qs : List Nat} {m p r c : Nat} (hword : m + qs.length + p ≤ 63)
    (hsorted : qs.Pairwise (· < ·)) (hqs : forall q, q ∈ qs -> q < m + qs.length)
    (hr : r < twoPow m) (hc : c < twoPow p) :
    spread qs (cell m r c) = cell (m + qs.length) (spread qs r) c := by
  induction qs generalizing m r with
  | nil =>
      rfl
  | cons q rest ih =>
      have hfirst := add_length_lt_of_ascending hsorted hqs
      have hlen : m + (q :: rest).length = m + 1 + rest.length := by
        rw [List.length_cons]
        omega
      rw [hlen] at hqs hword ⊢
      rw [List.length_cons] at hfirst
      rw [spread_cons, spread_cons,
        insertZero_cell_row (by omega) (by omega) hr (cell_lt_of_add_le hr hc (by omega))]
      rw [List.pairwise_cons] at hsorted
      exact ih hword hsorted.2 (fun t ht => hqs t (List.mem_cons_of_mem q ht))
        (insertZero_lt (by omega) hr)

theorem spread_cell_columns {qs : List Nat} {n p r c : Nat} (hword : n + (p + qs.length) ≤ 63)
    (hr : r < twoPow n) (hc : c < twoPow p) :
    spread (sideBits true n qs) (cell n r c) = cell n r (spread qs c) := by
  induction qs generalizing p c with
  | nil =>
      rfl
  | cons q rest ih =>
      rw [List.length_cons] at hword
      have hcolumn : c < twoPow 63 := lt_of_lt_of_le hc (twoPow_le_twoPow (by omega))
      change spread (sideBits true n rest) (insertZero (q + n) (cell n r c)) = _
      rw [insertZero_cell_column hr hcolumn (cell_lt_of_add_le hr hc (by omega))]
      exact ih (p := p + 1) (by omega) (insertZero_lt (by omega) hc)

theorem sorted_bothSides {n : Nat} {qs : List Nat} (hnodup : qs.Nodup)
    (hqs : forall q, q ∈ qs -> q < n) :
    sorted (bothSides n qs) = sorted qs ++ sideBits true n (sorted qs) := by
  have hrows := pairwise_lt_sorted hnodup
  have hcolumns : (sideBits true n (sorted qs)).Pairwise (· < ·) :=
    hrows.map _ fun _ _ h => Nat.add_lt_add_right h n
  have hjoined : (sorted qs ++ sideBits true n (sorted qs)).Pairwise (· < ·) := by
    refine List.pairwise_append.mpr ⟨hrows, hcolumns, ?_⟩
    intro p hp q hq
    have hlt := hqs p (mem_sorted.mp hp)
    rcases List.mem_map.mp hq with ⟨q', _, rfl⟩
    change p < q' + n
    omega
  apply (pairwise_lt_sorted (nodup_bothSides hnodup hqs)).eq_of_mem_iff hjoined
  intro p
  unfold bothSides sideBits
  rw [mem_sorted, List.mem_append, List.mem_append, mem_sorted, List.mem_map, List.mem_map]
  simp only [mem_sorted]

theorem spread_bothSides {n r c : Nat} {qs : List Nat} (hnodup : qs.Nodup)
    (hqs : forall q, q ∈ qs -> q < n) (hn : 2 * n ≤ 63)
    (hr : r < twoPow (n - qs.length)) (hc : c < twoPow (n - qs.length))
    (hlen : qs.length ≤ n) :
    spread (sorted (bothSides n qs)) (cell (n - qs.length) r c) =
      cell n (spread (sorted qs) r) (spread (sorted qs) c) := by
  have hroom : n - qs.length + (sorted qs).length = n := by
    rw [length_sorted]
    omega
  have hspread : spread (sorted qs) r < twoPow n := spread_sorted_lt hlen (by omega) hr
  rw [sorted_bothSides hnodup hqs, spread_append,
    spread_cell_rows (p := n - qs.length) (by omega) (pairwise_lt_sorted hnodup)
      (fun q hq => by rw [hroom]; exact hqs q (mem_sorted.mp hq)) hr hc,
    hroom, spread_cell_columns (p := n - qs.length) (by omega) hspread hc]

/-!
## Blocks
-/

theorem clearBits_eq_self {qs : List Nat} {x : Nat}
    (hzero : forall q, q ∈ qs -> x.testBit q = false) : clearBits (bitMask qs) x = x := by
  apply Nat.eq_of_testBit_eq
  intro i
  rw [testBit_clearBits, testBit_bitMask]
  by_cases hi : i ∈ qs
  · rw [hzero i hi, Bool.false_and]
  · rw [decide_eq_false hi, Bool.not_false, Bool.and_true]

theorem or_scatter_eq_overwrite {qs : List Nat} {x : Nat}
    (hzero : forall q, q ∈ qs -> x.testBit q = false) (y : Nat) :
    x ||| scatter qs y = overwrite qs x y := by
  unfold overwrite
  rw [clearBits_eq_self hzero]

theorem clearBits_overwrite {qs : List Nat} (x y : Nat) :
    clearBits (bitMask qs) (overwrite qs x y) = clearBits (bitMask qs) x := by
  apply Nat.eq_of_testBit_eq
  intro i
  rw [testBit_clearBits, testBit_clearBits, testBit_bitMask]
  by_cases hi : i ∈ qs
  · rw [decide_eq_true hi, Bool.not_true, Bool.and_false, Bool.and_false]
  · rw [testBit_overwrite_of_not_mem x y hi]

end Basis
end MixedState
