import MixedState.Basis.Block
import MixedState.Proofs.Basis.Bits

/-!
# Block starts

The lowest index of a block has zeros at the listed positions.  Inserting zeros
at ascending positions undoes taking them out, so every such index of a buffer
is the start of one of its blocks.
-/

namespace MixedState
namespace Basis

theorem testBit_removeBit (q x i : Nat) :
    (removeBit q x).testBit i = if i < q then x.testBit i else x.testBit (i + 1) := by
  unfold removeBit
  rw [Nat.testBit_or, Nat.testBit_shiftLeft, Nat.testBit_shiftRight]
  change (_ || (x % 2 ^ q).testBit i) = _
  rw [Nat.testBit_mod_two_pow]
  by_cases h : i < q
  · simp [h]
  · have hle : q ≤ i := by omega
    have hshift : q + 1 + (i - q) = i + 1 := by omega
    simp [h, hle, hshift]

theorem wordSize_eq : wordSize = twoPow 64 :=
  rfl

theorem testBit_insertZero {q x : Nat} (i : Nat) (hx : x < twoPow 63) :
    (insertZero q x).testBit i =
      if i < q then x.testBit i else if i = q then false else x.testBit (i - 1) := by
  have hmod : forall y, (y % wordSize).testBit i = (decide (i < 64) && y.testBit i) := by
    intro y
    rw [wordSize_eq]
    exact Nat.testBit_mod_two_pow y 64 i
  unfold insertZero
  rw [Nat.testBit_or, hmod, Nat.testBit_shiftLeft, Nat.testBit_shiftRight]
  change (_ || (x % 2 ^ q).testBit i) = _
  rw [Nat.testBit_mod_two_pow]
  by_cases hlt : i < q
  · have hnle : ¬q + 1 ≤ i := by omega
    simp [hlt, hnle]
  · by_cases heq : i = q
    · subst i
      simp
    · have hle : q + 1 ≤ i := by omega
      have hshift : q + (i - (q + 1)) = i - 1 := by omega
      have hhigh : ¬i < 64 -> x.testBit (i - 1) = false := by
        intro h
        exact (lt_twoPow_iff x 63).mp hx (i - 1) (by omega)
      by_cases hword : i < 64
      · simp [hlt, heq, hle, hshift, hword]
      · simp [hlt, heq, hword, hhigh hword]

theorem removeBit_lt {q x n : Nat} (hq : q < n + 1) (hx : x < twoPow (n + 1)) :
    removeBit q x < twoPow n := by
  rw [lt_twoPow_iff] at hx ⊢
  intro i hi
  rw [testBit_removeBit, if_neg (by omega), hx (i + 1) (by omega)]

theorem removeBit_lt_of_lt {x n : Nat} (q : Nat) (hx : x < twoPow n) :
    removeBit q x < twoPow n := by
  rw [lt_twoPow_iff] at hx ⊢
  intro i hi
  rw [testBit_removeBit]
  split
  · exact hx i hi
  · exact hx (i + 1) (by omega)

theorem insertZero_removeBit {q x : Nat} (hx : x < twoPow 63)
    (hbit : x.testBit q = false) : insertZero q (removeBit q x) = x := by
  apply Nat.eq_of_testBit_eq
  intro i
  rw [testBit_insertZero i (removeBit_lt_of_lt q hx)]
  by_cases hlt : i < q
  · rw [if_pos hlt, testBit_removeBit, if_pos hlt]
  · by_cases heq : i = q
    · rw [if_neg hlt, if_pos heq, heq, hbit]
    · rw [if_neg hlt, if_neg heq, testBit_removeBit, if_neg (by omega)]
      congr 1
      omega

/-!
## Several positions
-/

theorem squeeze_cons (q : Nat) (rest : List Nat) (x : Nat) :
    squeeze (q :: rest) x = removeBit q (squeeze rest x) :=
  rfl

theorem spread_cons (q : Nat) (rest : List Nat) (k : Nat) :
    spread (q :: rest) k = spread rest (insertZero q k) :=
  rfl

theorem add_length_lt_of_ascending {q n : Nat} {rest : List Nat}
    (hsorted : (q :: rest).Pairwise (· < ·)) (hqs : forall p, p ∈ q :: rest -> p < n) :
    q + rest.length < n := by
  induction rest generalizing q with
  | nil =>
      simpa using hqs q List.mem_cons_self
  | cons p rest ih =>
      rw [List.pairwise_cons] at hsorted
      have hqp : q < p := hsorted.1 p List.mem_cons_self
      have hp : p + rest.length < n :=
        ih hsorted.2 fun t ht => hqs t (List.mem_cons_of_mem q ht)
      rw [List.length_cons]
      omega

theorem squeeze_lt {qs : List Nat} {x n : Nat} (hsorted : qs.Pairwise (· < ·))
    (hqs : forall q, q ∈ qs -> q < n + qs.length) (hx : x < twoPow (n + qs.length)) :
    squeeze qs x < twoPow n := by
  induction qs generalizing n with
  | nil =>
      simpa [squeeze] using hx
  | cons q rest ih =>
      have hfirst : q + rest.length < n + (q :: rest).length :=
        add_length_lt_of_ascending hsorted hqs
      have hlen : n + (q :: rest).length = n + 1 + rest.length := by
        rw [List.length_cons]
        omega
      rw [hlen] at hqs hx hfirst
      rw [List.pairwise_cons] at hsorted
      have hrest : squeeze rest x < twoPow (n + 1) :=
        ih hsorted.2 (fun p hp => hqs p (List.mem_cons_of_mem q hp)) hx
      exact removeBit_lt (by omega) hrest

theorem squeeze_lt_of_lt {x n : Nat} (qs : List Nat) (hx : x < twoPow n) :
    squeeze qs x < twoPow n := by
  induction qs with
  | nil =>
      exact hx
  | cons q rest ih =>
      exact removeBit_lt_of_lt q ih

theorem testBit_squeeze_of_lt {qs : List Nat} {i : Nat} (x : Nat)
    (h : forall q, q ∈ qs -> i < q) : (squeeze qs x).testBit i = x.testBit i := by
  induction qs with
  | nil =>
      rfl
  | cons q rest ih =>
      rw [squeeze_cons, testBit_removeBit, if_pos (h q List.mem_cons_self)]
      exact ih fun p hp => h p (List.mem_cons_of_mem q hp)

theorem spread_squeeze {qs : List Nat} {x : Nat} (hsorted : qs.Pairwise (· < ·))
    (hx : x < twoPow 63) (hzero : forall q, q ∈ qs -> x.testBit q = false) :
    spread qs (squeeze qs x) = x := by
  induction qs with
  | nil =>
      rfl
  | cons q rest ih =>
      rw [List.pairwise_cons] at hsorted
      have hbit : (squeeze rest x).testBit q = false := by
        rw [testBit_squeeze_of_lt x hsorted.1]
        exact hzero q List.mem_cons_self
      rw [spread_cons, squeeze_cons,
        insertZero_removeBit (squeeze_lt_of_lt rest hx) hbit]
      exact ih hsorted.2 fun p hp => hzero p (List.mem_cons_of_mem q hp)

/-!
## The start of a block
-/

theorem mem_sorted {qs : List Nat} {q : Nat} : q ∈ sorted qs ↔ q ∈ qs :=
  List.mem_mergeSort

theorem length_sorted (qs : List Nat) : (sorted qs).length = qs.length :=
  List.length_mergeSort qs

theorem pairwise_lt_sorted {qs : List Nat} (hnodup : qs.Nodup) :
    (sorted qs).Pairwise (· < ·) := by
  have hle : (sorted qs).Pairwise fun a b => decide (a ≤ b) = true :=
    List.pairwise_mergeSort (by simp; omega) (by simp; omega) qs
  have hne : (sorted qs).Nodup := (List.mergeSort_perm qs _).nodup_iff.mpr hnodup
  exact (hle.and hne).imp fun hab =>
    lt_of_le_of_ne (of_decide_eq_true hab.1) hab.2

theorem isBlockStart_clearBits {qs : List Nat} {x n : Nat} (hnodup : qs.Nodup)
    (hlen : qs.length ≤ n) (hqs : forall q, q ∈ qs -> q < n) (hn : n < 64)
    (hx : x < twoPow n) :
    isBlockStart (sorted qs) (twoPow n / twoPow qs.length)
      (clearBits (bitMask qs) x) = true := by
  have hblocks : twoPow n / twoPow qs.length = twoPow (n - qs.length) :=
    Nat.pow_div hlen (by decide)
  have hstart : clearBits (bitMask qs) x < twoPow n := by
    rw [lt_twoPow_iff] at hx ⊢
    intro i hi
    rw [testBit_clearBits, hx i hi, Bool.false_and]
  have hroom : n = n - (sorted qs).length + (sorted qs).length := by
    rw [length_sorted]
    omega
  have hsqueeze : squeeze (sorted qs) (clearBits (bitMask qs) x)
      < twoPow (n - qs.length) := by
    rw [← length_sorted qs]
    apply squeeze_lt (pairwise_lt_sorted hnodup)
    · intro q hq
      rw [← hroom]
      exact hqs q (mem_sorted.mp hq)
    · rw [← hroom]
      exact hstart
  have hspread : spread (sorted qs) (squeeze (sorted qs) (clearBits (bitMask qs) x))
      = clearBits (bitMask qs) x := by
    apply spread_squeeze (pairwise_lt_sorted hnodup)
    · exact lt_of_lt_of_le hstart (twoPow_le_twoPow (by omega))
    · intro q hq
      rw [testBit_clearBits, testBit_bitMask]
      simp [mem_sorted.mp hq]
  unfold isBlockStart
  rw [hblocks]
  simp [hsqueeze, hspread]

/-!
## Least spellings
-/

theorem isLeastSpelling_go {seen rest : List Nat} (j : Nat) (hnodup : rest.Nodup)
    (hseen : forall q, q ∈ rest -> q ∉ seen) : isLeastSpelling.go seen rest j = true := by
  induction rest generalizing seen j with
  | nil =>
      rfl
  | cons q rest ih =>
      rw [List.nodup_cons] at hnodup
      have hnew : seen.contains q = false := by
        simpa using hseen q List.mem_cons_self
      have hrest : forall p, p ∈ rest -> p ∉ q :: seen := by
        intro p hp hmem
        rcases List.mem_cons.mp hmem with rfl | hmem
        · exact hnodup.1 hp
        · exact hseen p (List.mem_cons_of_mem q hp) hmem
      unfold isLeastSpelling.go
      rw [hnew, ih (j / 2) hnodup.2 hrest]
      simp

theorem isLeastSpelling_of_nodup {qs : List Nat} (j : Nat) (hnodup : qs.Nodup) :
    isLeastSpelling qs j = true :=
  isLeastSpelling_go j hnodup fun _ _ => List.not_mem_nil

end Basis
end MixedState
