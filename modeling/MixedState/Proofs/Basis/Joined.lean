import MixedState.Proofs.Basis.Spread

/-!
# Indices that spell two numbers

Of an index, the listed bits spell one number and the other bits, in ascending order, a
second one.  Each pair of numbers is spelled by exactly one index of the register, which is
the entry of a block: the second number is that of the block, and the first one the place
in it.
-/

namespace MixedState

open MixedState.Basis

/-!
## The other qubits
-/

/-- The qubits of a register that are not listed, in ascending order. -/
def unlisted (n : Nat) (qs : List Nat) : List Nat :=
  (List.range n).filter fun q => q ∉ qs

theorem mem_unlisted {n q : Nat} {qs : List Nat} : q ∈ unlisted n qs ↔ q < n ∧ q ∉ qs := by
  unfold unlisted
  rw [List.mem_filter, List.mem_range, decide_eq_true_iff]

theorem nodup_unlisted (n : Nat) (qs : List Nat) : (unlisted n qs).Nodup :=
  List.nodup_range.filter _

theorem unlisted_congr {n : Nat} {ps qs : List Nat} (h : forall q, q ∈ ps ↔ q ∈ qs) :
    unlisted n ps = unlisted n qs := by
  unfold unlisted
  apply List.filter_congr
  intro q _
  rw [decide_eq_decide, h q]

theorem length_unlisted {n : Nat} {qs : List Nat} (hnodup : qs.Nodup)
    (hqs : forall q, q ∈ qs -> q < n) : (unlisted n qs).length = n - qs.length := by
  have hlisted : ((List.range n).filter fun q => q ∈ qs).Perm qs := by
    apply (List.perm_ext_iff_of_nodup (List.nodup_range.filter _) hnodup).mpr
    intro q
    rw [List.mem_filter, List.mem_range, decide_eq_true_iff]
    exact and_iff_right_of_imp (hqs q)
  have hsplit := List.length_eq_length_filter_add (l := List.range n) fun q => q ∈ qs
  have hrest : (unlisted n qs).length =
      ((List.range n).filter fun q => !decide (q ∈ qs)).length := by
    unfold unlisted
    simp only [decide_not]
  rw [List.length_range, hlisted.length_eq] at hsplit
  omega

theorem unlisted_cons {n q : Nat} {rest : List Nat} (hq : q < n)
    (hrest : forall p, p ∈ rest -> q < p) :
    unlisted n (q :: rest) = (unlisted n rest).eraseIdx q := by
  have hsplit : List.range n =
      List.range q ++ q :: (List.range (n - q - 1)).map fun i => q + (i + 1) := by
    have hn : n = q + (n - q - 1 + 1) := by omega
    rw [hn, List.range_add, List.range_succ_eq_map]
    simp
  have hbefore : forall ps : List Nat, (forall p, p ∈ ps -> q ≤ p) ->
      (List.range q).filter (fun p => p ∉ ps) = List.range q := by
    intro ps hps
    rw [List.filter_eq_self]
    intro p hp
    rw [decide_eq_true_iff]
    intro hmem
    exact Nat.not_lt_of_le (hps p hmem) (List.mem_range.mp hp)
  have hafter : ((List.range (n - q - 1)).map fun i => q + (i + 1)).filter
      (fun p => p ∉ q :: rest) =
      ((List.range (n - q - 1)).map fun i => q + (i + 1)).filter fun p => p ∉ rest := by
    apply List.filter_congr
    intro p hp
    rcases List.mem_map.mp hp with ⟨i, _, rfl⟩
    have hne : ¬q + (i + 1) = q := by omega
    rw [decide_eq_decide, List.mem_cons, or_iff_right hne]
  have hfirst : q ∉ rest := fun hmem => Nat.lt_irrefl q (hrest q hmem)
  have hfrom : forall p, p ∈ q :: rest -> q ≤ p := by
    intro p hp
    rcases List.mem_cons.mp hp with rfl | hp
    · exact Nat.le_refl p
    · exact Nat.le_of_lt (hrest p hp)
  unfold unlisted
  rw [hsplit, List.filter_append, List.filter_append, hbefore _ hfrom,
    hbefore _ fun p hp => Nat.le_of_lt (hrest p hp),
    List.filter_cons_of_neg (by simp), List.filter_cons_of_pos (by simpa using hfirst), hafter,
    List.eraseIdx_append_of_length_le (by rw [List.length_range]), List.length_range,
    Nat.sub_self]
  rfl

theorem gather_eraseIdx (qs : List Nat) (q x : Nat) :
    gather (qs.eraseIdx q) x = removeBit q (gather qs x) := by
  apply Nat.eq_of_testBit_eq
  intro j
  rw [testBit_removeBit, testBit_gather_eq, testBit_gather_eq, testBit_gather_eq,
    List.getElem?_eraseIdx]
  split
  · rfl
  · rfl

theorem squeeze_eq_gather {n x : Nat} {qs : List Nat} (hsorted : qs.Pairwise (· < ·))
    (hqs : forall q, q ∈ qs -> q < n) (hx : x < twoPow n) :
    squeeze qs x = gather (unlisted n qs) x := by
  induction qs with
  | nil =>
      have hall : unlisted n [] = List.range n := by
        unfold unlisted
        simp
      rw [hall, gather_range hx]
      rfl
  | cons q rest ih =>
      rw [List.pairwise_cons] at hsorted
      rw [squeeze_cons, ih hsorted.2 fun p hp => hqs p (List.mem_cons_of_mem q hp),
        unlisted_cons (hqs q List.mem_cons_self) hsorted.1, gather_eraseIdx]

theorem spread_sorted_eq_scatter {n t : Nat} {qs : List Nat} (hnodup : qs.Nodup)
    (hqs : forall q, q ∈ qs -> q < n) (hn : n ≤ 63) (ht : t < twoPow (n - qs.length)) :
    spread (sorted qs) t = scatter (unlisted n qs) t := by
  have hlen := length_le_of_nodup hnodup hqs
  have hroom : n - qs.length + (sorted qs).length = n := by
    rw [length_sorted]
    omega
  have hlt : spread (sorted qs) t < twoPow n := spread_sorted_lt hlen hn ht
  have hspelled : gather (unlisted n qs) (spread (sorted qs) t) = t := by
    rw [← unlisted_congr fun q => mem_sorted, ← squeeze_eq_gather (pairwise_lt_sorted hnodup)
      (fun q hq => hqs q (mem_sorted.mp hq)) hlt, squeeze_spread (by omega) ht]
  apply Nat.eq_of_testBit_eq
  intro i
  by_cases hi : i ∈ unlisted n qs
  · rcases List.mem_iff_getElem?.mp hi with ⟨j, hj⟩
    rw [testBit_scatter t (nodup_unlisted n qs) hj, ← testBit_gather _ hj, hspelled]
  · rw [testBit_scatter_of_not_mem t hi]
    by_cases hin : i < n
    · have hmem : i ∈ qs := by
        by_contra hnot
        exact hi (mem_unlisted.mpr ⟨hin, hnot⟩)
      exact testBit_spread_of_mem (by omega) ht (pairwise_lt_sorted hnodup) (mem_sorted.mpr hmem)
    · exact (lt_twoPow_iff _ n).mp hlt i (Nat.le_of_not_lt hin)

/-!
## Joined indices
-/

/-- The index that spells `a` at the listed qubits and `t` at the other ones. -/
def joined (n : Nat) (qs : List Nat) (a t : Nat) : Nat :=
  scatter qs a ||| scatter (unlisted n qs) t

structure Joins (n : Nat) (qs : List Nat) (a t x : Nat) : Prop where
  lt : x < twoPow n
  listed : forall j q, qs[j]? = some q -> x.testBit q = a.testBit j
  others : forall i q, (unlisted n qs)[i]? = some q -> x.testBit q = t.testBit i

theorem joins_joined {n : Nat} {qs : List Nat} (hnodup : qs.Nodup)
    (hqs : forall q, q ∈ qs -> q < n) (a t : Nat) : Joins n qs a t (joined n qs a t) where
  lt := Nat.or_lt_two_pow (scatter_lt hqs a) (scatter_lt (fun q hq => (mem_unlisted.mp hq).1) t)
  listed := by
    intro j q hj
    have hnot : q ∉ unlisted n qs := fun hmem => (mem_unlisted.mp hmem).2 (List.mem_of_getElem? hj)
    unfold joined
    rw [Nat.testBit_or, testBit_scatter a hnodup hj, testBit_scatter_of_not_mem t hnot,
      Bool.or_false]
  others := by
    intro i q hi
    have hnot : q ∉ qs := (mem_unlisted.mp (List.mem_of_getElem? hi)).2
    unfold joined
    rw [Nat.testBit_or, testBit_scatter_of_not_mem a hnot,
      testBit_scatter t (nodup_unlisted n qs) hi, Bool.false_or]

theorem Joins.unique {n a t x y : Nat} {qs : List Nat} (hx : Joins n qs a t x)
    (hy : Joins n qs a t y) : x = y := by
  apply Nat.eq_of_testBit_eq
  intro q
  by_cases hn : q < n
  · by_cases hq : q ∈ qs
    · rcases List.mem_iff_getElem?.mp hq with ⟨j, hj⟩
      rw [hx.listed j q hj, hy.listed j q hj]
    · rcases List.mem_iff_getElem?.mp (mem_unlisted.mpr ⟨hn, hq⟩) with ⟨i, hi⟩
      rw [hx.others i q hi, hy.others i q hi]
  · rw [(lt_twoPow_iff x n).mp hx.lt q (Nat.le_of_not_lt hn),
      (lt_twoPow_iff y n).mp hy.lt q (Nat.le_of_not_lt hn)]

theorem Joins.gather_eq {n a t x : Nat} {qs : List Nat} (h : Joins n qs a t x)
    (ha : a < twoPow qs.length) : gather qs x = a :=
  gather_eq_of_testBit ha h.listed

theorem Joins.gather_unlisted_eq {n a t x : Nat} {qs : List Nat} (h : Joins n qs a t x)
    (ht : t < twoPow (unlisted n qs).length) : gather (unlisted n qs) x = t :=
  gather_eq_of_testBit ht h.others

theorem joins_gather {n x : Nat} {qs : List Nat} (hx : x < twoPow n) :
    Joins n qs (gather qs x) (gather (unlisted n qs) x) x where
  lt := hx
  listed := fun _ _ hj => (testBit_gather x hj).symm
  others := fun _ _ hi => (testBit_gather x hi).symm

theorem joins_overwrite {n x : Nat} {qs : List Nat} (hnodup : qs.Nodup)
    (hqs : forall q, q ∈ qs -> q < n) (hx : x < twoPow n) (a : Nat) :
    Joins n qs a (gather (unlisted n qs) x) (overwrite qs x a) where
  lt := overwrite_lt a hqs hx
  listed := fun _ _ hj => testBit_overwrite x a hnodup hj
  others := by
    intro i q hi
    rw [testBit_overwrite_of_not_mem x a (mem_unlisted.mp (List.mem_of_getElem? hi)).2,
      testBit_gather x hi]

theorem joins_overwrite_unlisted {n x : Nat} {qs : List Nat} (hx : x < twoPow n) (t : Nat) :
    Joins n qs (gather qs x) t (overwrite (unlisted n qs) x t) where
  lt := overwrite_lt t (fun _ hq => (mem_unlisted.mp hq).1) hx
  listed := by
    intro j q hj
    have hnot : q ∉ unlisted n qs := fun hmem => (mem_unlisted.mp hmem).2 (List.mem_of_getElem? hj)
    rw [testBit_overwrite_of_not_mem x t hnot, testBit_gather x hj]
  others := fun _ _ hi => testBit_overwrite x t (nodup_unlisted n qs) hi

section Register

variable {n t : Nat} {qs : List Nat} (hnodup : qs.Nodup) (hqs : forall q, q ∈ qs -> q < n)

include hnodup hqs

theorem gather_joined {a : Nat} (ha : a < twoPow qs.length) (t : Nat) :
    gather qs (joined n qs a t) = a :=
  (joins_joined hnodup hqs a t).gather_eq ha

theorem gather_unlisted_joined (ht : t < twoPow (n - qs.length)) (a : Nat) :
    gather (unlisted n qs) (joined n qs a t) = t := by
  rw [← length_unlisted hnodup hqs] at ht
  exact (joins_joined hnodup hqs a t).gather_unlisted_eq ht

theorem joined_gather {x : Nat} (hx : x < twoPow n) :
    joined n qs (gather qs x) (gather (unlisted n qs) x) = x :=
  (joins_joined hnodup hqs _ _).unique (joins_gather hx)

theorem joined_injective {a t' : Nat} (ht : t < twoPow (n - qs.length))
    (ht' : t' < twoPow (n - qs.length)) (h : joined n qs a t = joined n qs a t') : t = t' := by
  rw [← gather_unlisted_joined hnodup hqs ht a, h, gather_unlisted_joined hnodup hqs ht' a]

theorem overwrite_joined (ht : t < twoPow (n - qs.length)) (a b : Nat) :
    overwrite qs (joined n qs a t) b = joined n qs b t := by
  have hnew := joins_overwrite hnodup hqs (joins_joined hnodup hqs a t).lt b
  rw [gather_unlisted_joined hnodup hqs ht] at hnew
  exact hnew.unique (joins_joined hnodup hqs b t)

theorem gather_unlisted_lt (x : Nat) :
    gather (unlisted n qs) x < twoPow (n - qs.length) := by
  rw [← length_unlisted hnodup hqs]
  exact gather_lt (unlisted n qs) x

theorem bijOn_joined :
    Set.BijOn (fun p : Nat × Nat => joined n qs p.2 p.1)
      {p | p.1 < twoPow (n - qs.length) ∧ p.2 < twoPow qs.length} {x | x < twoPow n} := by
  have hinverse : Set.InvOn (fun x => (gather (unlisted n qs) x, gather qs x))
      (fun p : Nat × Nat => joined n qs p.2 p.1)
      {p | p.1 < twoPow (n - qs.length) ∧ p.2 < twoPow qs.length} {x | x < twoPow n} := by
    constructor
    · rintro ⟨t, a⟩ ⟨ht, ha⟩
      exact Prod.ext (gather_unlisted_joined hnodup hqs ht a) (gather_joined hnodup hqs ha t)
    · intro x hx
      exact joined_gather hnodup hqs hx
  apply hinverse.bijOn
  · rintro ⟨t, a⟩ _
    exact (joins_joined hnodup hqs a t).lt
  · intro x _
    exact ⟨gather_unlisted_lt hnodup hqs x, gather_lt qs x⟩

/-!
## Blocks
-/

theorem blockIndex_eq_joined (hn : n ≤ 63) (ht : t < twoPow (n - qs.length)) (a : Nat) :
    blockIndex qs (sorted qs) t a = joined n qs a t := by
  unfold blockIndex joined
  rw [spread_sorted_eq_scatter hnodup hqs hn ht, Nat.or_comm]

theorem overwrite_spread_eq_joined (hn : n ≤ 63) (ht : t < twoPow (n - qs.length))
    (a : Nat) : overwrite qs (spread (sorted qs) t) a = joined n qs a t := by
  have hzero : forall q, q ∈ qs -> (spread (sorted qs) t).testBit q = false := by
    intro q hq
    rw [spread_sorted_eq_scatter hnodup hqs hn ht]
    exact testBit_scatter_of_not_mem t fun hmem => (mem_unlisted.mp hmem).2 hq
  rw [← or_scatter_eq_overwrite hzero]
  exact blockIndex_eq_joined hnodup hqs hn ht a

theorem sum_blocks {M : Type} [AddCommMonoid M] (hn : n ≤ 63) (f : Nat -> M) :
    ∑ x ∈ Finset.range (twoPow n), f x =
      ∑ t ∈ Finset.range (twoPow (n - qs.length)), ∑ j ∈ Finset.range (twoPow qs.length),
        f (overwrite qs (spread (sorted qs) t) j) := by
  have hbij := bijOn_joined hnodup hqs
  have hmem : forall p : Nat × Nat, p ∈ Finset.range (twoPow (n - qs.length)) ×ˢ
      Finset.range (twoPow qs.length) ↔ p.1 < twoPow (n - qs.length) ∧ p.2 < twoPow qs.length := by
    intro p
    rw [Finset.mem_product, Finset.mem_range, Finset.mem_range]
  rw [← Finset.sum_product']
  symm
  apply Finset.sum_nbij fun p => joined n qs p.2 p.1
  · intro p hp
    exact Finset.mem_range.mpr (hbij.mapsTo ((hmem p).mp hp))
  · intro p hp p' hp' h
    exact hbij.injOn ((hmem p).mp hp) ((hmem p').mp hp') h
  · intro x hx
    rcases hbij.surjOn (Finset.mem_range.mp hx) with ⟨p, hp, heq⟩
    exact ⟨p, (hmem p).mpr hp, heq⟩
  · intro p hp
    rw [overwrite_spread_eq_joined hnodup hqs hn ((hmem p).mp hp).1]

end Register

end MixedState
