import Mathlib.Algebra.BigOperators.Group.Finset.Basic
import MixedState.Proofs.Basis.Spread

/-!
# Positions that are listed twice

Where a position is listed at several places, a number has several bits for it.  A number
that sets them alike is gathered from an index.  Of the numbers that are scattered to one
index, the least sets each bit at the first place of its position only.
-/

namespace MixedState
namespace Basis

/-- The lowest index that differs from `x` at the listed positions only. -/
def lowest (qs : List Nat) (x : Nat) : Nat :=
  clearBits (bitMask qs) x

/-- The least number that is scattered to the listed bits of `x`. -/
def leastSpelling (qs : List Nat) (x : Nat) : Nat :=
  go [] qs
where
  go (seen rest : List Nat) : Nat :=
    match rest with
    | [] => 0
    | q :: rest => (!seen.contains q && x.testBit q).toNat + 2 * go (q :: seen) rest

/-- All places of a position have the same bit. -/
def IsConsistent (qs : List Nat) (d : Nat) : Prop :=
  gather qs (scatter qs d) = d

instance (qs : List Nat) (d : Nat) : Decidable (IsConsistent qs d) :=
  inferInstanceAs (Decidable (_ = _))

variable {n : Nat} {qs : List Nat} {x a : Nat}

/-!
## Blocks
-/

theorem testBit_lowest (qs : List Nat) (x q : Nat) :
    (lowest qs x).testBit q = (x.testBit q && !decide (q ∈ qs)) := by
  unfold lowest
  rw [testBit_clearBits, testBit_bitMask]

theorem lowest_eq_lowest_iff :
    lowest qs x = lowest qs a ↔ forall q, q ∉ qs -> x.testBit q = a.testBit q := by
  constructor
  · intro h q hq
    have hbit := congrArg (fun y => y.testBit q) h
    simpa [testBit_lowest, hq] using hbit
  · intro h
    apply Nat.eq_of_testBit_eq
    intro q
    rw [testBit_lowest, testBit_lowest]
    by_cases hq : q ∈ qs
    · simp [hq]
    · rw [h q hq]

theorem lowest_overwrite (qs : List Nat) (x y : Nat) :
    lowest qs (overwrite qs x y) = lowest qs x :=
  clearBits_overwrite x y

theorem overwrite_eq_of_lowest {y : Nat} (hblock : lowest qs a = lowest qs x)
    (hbits : forall q, (scatter qs y).testBit q = (decide (q ∈ qs) && a.testBit q)) :
    overwrite qs x y = a := by
  apply Nat.eq_of_testBit_eq
  intro q
  by_cases hq : q ∈ qs
  · unfold overwrite
    rw [Nat.testBit_or, testBit_clearBits, testBit_bitMask, hbits]
    simp [hq]
  · rw [testBit_overwrite_of_not_mem x y hq, lowest_eq_lowest_iff.mp hblock q hq]

/-!
## Gathered numbers
-/

theorem testBit_scatter_gather (qs : List Nat) (x q : Nat) :
    (scatter qs (gather qs x)).testBit q = (decide (q ∈ qs) && x.testBit q) := by
  induction qs with
  | nil =>
      simp
  | cons p rest ih =>
      rw [gather_cons, scatter_cons, testBit_zero_bit, bit_div_two, Nat.testBit_or, ih]
      by_cases hpq : p = q
      · subst hpq
        cases hx : x.testBit p <;> simp [testBit_twoPow]
      · have hqp : ¬q = p := fun h => hpq h.symm
        cases hx : x.testBit p <;> simp [testBit_twoPow, hpq, hqp]

theorem isConsistent_gather (qs : List Nat) (x : Nat) : IsConsistent qs (gather qs x) := by
  apply gather_congr
  intro q hq
  rw [testBit_scatter_gather, decide_eq_true hq, Bool.true_and]

theorem gather_zero (qs : List Nat) : gather qs 0 = 0 := by
  induction qs with
  | nil =>
      rfl
  | cons p rest ih =>
      rw [gather_cons, ih, Nat.zero_testBit]
      rfl

theorem isConsistent_zero (qs : List Nat) : IsConsistent qs 0 := by
  have hgathered := isConsistent_gather qs 0
  rw [gather_zero] at hgathered
  exact hgathered

theorem gather_ne_zero {q : Nat} (hq : q ∈ qs) (hbit : x.testBit q = true) :
    gather qs x ≠ 0 := by
  intro hzero
  have hset := testBit_scatter_gather qs x q
  have hunset := testBit_scatter_gather qs 0 q
  rw [gather_zero, Nat.zero_testBit, Bool.and_false] at hunset
  rw [hzero, hunset, hbit, decide_eq_true hq] at hset
  cases hset

theorem gather_overwrite_of_isConsistent {d : Nat} (x : Nat) (hd : IsConsistent qs d) :
    gather qs (overwrite qs x d) = d := by
  refine (gather_congr ?_).trans hd
  intro q hq
  unfold overwrite
  rw [Nat.testBit_or, testBit_clearBits, testBit_bitMask]
  simp [hq]

theorem sum_gather {M : Type} [AddCommMonoid M] (hqs : forall q, q ∈ qs -> q < n)
    (hx : x < twoPow n) (f : Nat -> M) :
    ∑ r ∈ Finset.range (twoPow n), (if lowest qs r = lowest qs x then f (gather qs r) else 0) =
      ∑ d ∈ Finset.range (twoPow qs.length), if IsConsistent qs d then f d else 0 := by
  rw [← Finset.sum_filter, ← Finset.sum_filter]
  apply Finset.sum_nbij' (gather qs) (overwrite qs x)
  · intro r _
    rw [Finset.mem_filter, Finset.mem_range]
    exact ⟨gather_lt qs r, isConsistent_gather qs r⟩
  · intro d _
    rw [Finset.mem_filter, Finset.mem_range]
    exact ⟨overwrite_lt d hqs hx, lowest_overwrite qs x d⟩
  · intro r hr
    exact overwrite_eq_of_lowest (Finset.mem_filter.mp hr).2 (testBit_scatter_gather qs r)
  · intro d hd
    exact gather_overwrite_of_isConsistent x (Finset.mem_filter.mp hd).2
  · intro r _
    rfl

/-!
## Least spellings
-/

theorem leastSpelling_go_lt (x : Nat) (seen rest : List Nat) :
    leastSpelling.go x seen rest < twoPow rest.length := by
  induction rest generalizing seen with
  | nil =>
      exact twoPow_pos 0
  | cons q rest ih =>
      have hbit := Bool.toNat_lt (!seen.contains q && x.testBit q)
      have hrest := ih (q :: seen)
      unfold leastSpelling.go
      rw [List.length_cons, twoPow_succ]
      omega

theorem leastSpelling_lt (qs : List Nat) (x : Nat) : leastSpelling qs x < twoPow qs.length :=
  leastSpelling_go_lt x [] qs

theorem testBit_scatter_leastSpelling_go (x q : Nat) (seen rest : List Nat) :
    (scatter rest (leastSpelling.go x seen rest)).testBit q =
      (decide (q ∈ rest) && !decide (q ∈ seen) && x.testBit q) := by
  induction rest generalizing seen with
  | nil =>
      simp
  | cons p rest ih =>
      unfold leastSpelling.go
      rw [scatter_cons, testBit_zero_bit, bit_div_two, Nat.testBit_or, ih]
      by_cases hpq : p = q
      · subst hpq
        by_cases hseen : p ∈ seen
        · simp [hseen]
        · cases hx : x.testBit p <;> simp [testBit_twoPow, hseen]
      · have hqp : ¬q = p := fun h => hpq h.symm
        have hfirst : (if (!seen.contains p && x.testBit p) = true then twoPow p else 0).testBit q
            = false := by
          split
          · rw [testBit_twoPow, decide_eq_false hpq]
          · exact Nat.zero_testBit q
        rw [hfirst]
        simp [hqp]

theorem overwrite_leastSpelling (hblock : lowest qs a = lowest qs x) :
    overwrite qs x (leastSpelling qs a) = a := by
  apply overwrite_eq_of_lowest hblock
  intro q
  refine (testBit_scatter_leastSpelling_go a q [] qs).trans ?_
  rw [decide_eq_false List.not_mem_nil, Bool.not_false, Bool.and_true]

theorem leastSpelling_injective (hblock : lowest qs a = lowest qs x)
    (h : leastSpelling qs a = leastSpelling qs x) : a = x := by
  rw [← overwrite_leastSpelling hblock, h, overwrite_leastSpelling rfl]

theorem isLeastSpelling_go_leastSpelling (x : Nat) (seen rest : List Nat) :
    isLeastSpelling.go seen rest (leastSpelling.go x seen rest) = true := by
  induction rest generalizing seen with
  | nil =>
      rfl
  | cons q rest ih =>
      unfold leastSpelling.go isLeastSpelling.go
      rw [testBit_zero_bit, bit_div_two, ih]
      cases seen.contains q <;> simp

theorem testBit_scatter_of_seen {seen rest : List Nat} {j q : Nat}
    (hleast : isLeastSpelling.go seen rest j = true) (hq : q ∈ seen) :
    (scatter rest j).testBit q = false := by
  induction rest generalizing seen j with
  | nil =>
      simp
  | cons p rest ih =>
      unfold isLeastSpelling.go at hleast
      rw [Bool.and_eq_true] at hleast
      rcases hleast with ⟨hfirst, hrest⟩
      rw [scatter_cons, Nat.testBit_or, ih hrest (List.mem_cons_of_mem p hq), Bool.or_false]
      split
      · next hset =>
          have hnew : p ∉ seen := by simpa [hset] using hfirst
          have hpq : ¬p = q := fun h => hnew (h ▸ hq)
          rw [testBit_twoPow, decide_eq_false hpq]
      · exact Nat.zero_testBit q

theorem leastSpelling_go_eq {seen rest : List Nat} {j : Nat} (hj : j < twoPow rest.length)
    (hleast : isLeastSpelling.go seen rest j = true)
    (hx : forall q, q ∈ rest -> q ∉ seen -> x.testBit q = (scatter rest j).testBit q) :
    leastSpelling.go x seen rest = j := by
  induction rest generalizing seen j with
  | nil =>
      have hzero : j < 1 := hj
      unfold leastSpelling.go
      omega
  | cons p rest ih =>
      unfold isLeastSpelling.go at hleast
      rw [Bool.and_eq_true] at hleast
      rcases hleast with ⟨hfirst, hrest⟩
      rw [List.length_cons, twoPow_succ] at hj
      have hhigh : leastSpelling.go x (p :: seen) rest = j / 2 := by
        apply ih (by omega) hrest
        intro q hq hnew
        rw [List.mem_cons, not_or] at hnew
        have hpq : ¬p = q := fun h => hnew.1 h.symm
        rw [hx q (List.mem_cons_of_mem p hq) hnew.2, scatter_cons, Nat.testBit_or]
        split <;> simp [testBit_twoPow, hpq]
      have hlow : (!seen.contains p && x.testBit p) = j.testBit 0 := by
        by_cases hseen : p ∈ seen
        · have hunset : j.testBit 0 = false := by simpa [hseen] using hfirst
          rw [hunset, List.contains_iff_mem.mpr hseen]
          rfl
        · rw [hx p List.mem_cons_self hseen, scatter_cons, Nat.testBit_or,
            testBit_scatter_of_seen hrest List.mem_cons_self]
          cases hj0 : j.testBit 0 <;> simp [testBit_twoPow, hseen]
      have hsplit : (j.testBit 0).toNat + 2 * (j / 2) = j := by
        rw [Nat.testBit_zero]
        rcases Nat.mod_two_eq_zero_or_one j with hmod | hmod
        · simp [hmod]
          omega
        · simp [hmod]
          omega
      unfold leastSpelling.go
      rw [hhigh, hlow, hsplit]

theorem leastSpelling_overwrite {j : Nat} (x : Nat) (hj : j < twoPow qs.length)
    (hleast : isLeastSpelling qs j = true) : leastSpelling qs (overwrite qs x j) = j := by
  apply leastSpelling_go_eq hj hleast
  intro q hq _
  unfold overwrite
  rw [Nat.testBit_or, testBit_clearBits, testBit_bitMask]
  simp [hq]

theorem sum_leastSpelling {M : Type} [AddCommMonoid M] (hqs : forall q, q ∈ qs -> q < n)
    (hx : x < twoPow n) (f : Nat -> Nat -> M) :
    ∑ j ∈ Finset.range (twoPow qs.length),
        (if isLeastSpelling qs j = true then f j (overwrite qs x j) else 0) =
      ∑ a ∈ Finset.range (twoPow n),
        if lowest qs a = lowest qs x then f (leastSpelling qs a) a else 0 := by
  rw [← Finset.sum_filter, ← Finset.sum_filter]
  apply Finset.sum_nbij' (overwrite qs x) (leastSpelling qs)
  · intro j _
    rw [Finset.mem_filter, Finset.mem_range]
    exact ⟨overwrite_lt j hqs hx, lowest_overwrite qs x j⟩
  · intro a _
    rw [Finset.mem_filter, Finset.mem_range]
    exact ⟨leastSpelling_lt qs a, isLeastSpelling_go_leastSpelling a [] qs⟩
  · intro j hj
    rcases Finset.mem_filter.mp hj with ⟨hlt, hleast⟩
    exact leastSpelling_overwrite x (Finset.mem_range.mp hlt) hleast
  · intro a ha
    exact overwrite_leastSpelling (Finset.mem_filter.mp ha).2
  · intro j hj
    rcases Finset.mem_filter.mp hj with ⟨hlt, hleast⟩
    rw [leastSpelling_overwrite x (Finset.mem_range.mp hlt) hleast]

/-!
## Rows and columns
-/

theorem leastSpelling_go_append (x : Nat) (seen ps qs : List Nat) :
    leastSpelling.go x seen (ps ++ qs) = leastSpelling.go x seen ps +
      twoPow ps.length * leastSpelling.go x (ps.reverse ++ seen) qs := by
  induction ps generalizing seen with
  | nil =>
      simp [leastSpelling.go]
  | cons p rest ih =>
      rw [List.cons_append, leastSpelling.go, leastSpelling.go, ih, List.length_cons,
        twoPow_succ, List.reverse_cons, List.append_assoc, List.singleton_append]
      ring

theorem leastSpelling_go_map {y : Nat} {f : Nat -> Nat} {seen seen' rest : List Nat}
    (hf : forall p q, f p = f q -> p = q)
    (hbit : forall q, q ∈ rest -> y.testBit (f q) = x.testBit q)
    (hseen : forall q, q ∈ rest -> (f q ∈ seen' ↔ q ∈ seen)) :
    leastSpelling.go y seen' (rest.map f) = leastSpelling.go x seen rest := by
  induction rest generalizing seen seen' with
  | nil =>
      rfl
  | cons p rest ih =>
      have hcontains : seen'.contains (f p) = seen.contains p := by
        rw [Bool.eq_iff_iff, List.contains_iff_mem, List.contains_iff_mem]
        exact hseen p List.mem_cons_self
      have hrest : leastSpelling.go y (f p :: seen') (rest.map f) =
          leastSpelling.go x (p :: seen) rest := by
        apply ih (fun q hq => hbit q (List.mem_cons_of_mem p hq))
        intro q hq
        have hsame : f q = f p ↔ q = p := ⟨hf q p, congrArg f⟩
        rw [List.mem_cons, List.mem_cons, hsame, hseen q (List.mem_cons_of_mem p hq)]
      rw [List.map_cons, leastSpelling.go, leastSpelling.go, hcontains,
        hbit p List.mem_cons_self, hrest]

theorem not_mem_sideBits_true {q : Nat} (hq : q < n) : q ∉ sideBits true n qs := by
  intro hmem
  rcases List.mem_map.mp hmem with ⟨p, _, hp⟩
  change p + n = q at hp
  omega

theorem add_not_mem (hqs : forall q, q ∈ qs -> q < n) (q : Nat) : q + n ∉ qs := by
  intro hmem
  have hlt := hqs _ hmem
  omega

theorem leastSpelling_rows {r : Nat} (c : Nat) (hqs : forall q, q ∈ qs -> q < n)
    (hr : r < twoPow n) : leastSpelling qs (cell n r c) = leastSpelling qs r := by
  have hmap : leastSpelling.go (cell n r c) [] (qs.map id) = leastSpelling.go r [] qs :=
    leastSpelling_go_map (fun p q h => h) (fun q hq => testBit_cell_row c hr (hqs q hq))
      fun q _ => Iff.rfl
  rw [List.map_id] at hmap
  exact hmap

theorem leastSpelling_columns {r : Nat} (c : Nat) (hr : r < twoPow n) :
    leastSpelling (sideBits true n qs) (cell n r c) = leastSpelling qs c := by
  apply leastSpelling_go_map fun p q h => Nat.add_right_cancel h
  · intro q _
    exact testBit_cell_column c q hr
  · intro q _
    exact ⟨fun h => absurd h List.not_mem_nil, fun h => absurd h List.not_mem_nil⟩

theorem leastSpelling_bothSides {r : Nat} (c : Nat) (hqs : forall q, q ∈ qs -> q < n)
    (hr : r < twoPow n) :
    leastSpelling (bothSides n qs) (cell n r c) =
      leastSpelling qs r + twoPow qs.length * leastSpelling qs c := by
  have hrows : leastSpelling.go (cell n r c) [] qs = leastSpelling qs r :=
    leastSpelling_rows c hqs hr
  have hcolumns : leastSpelling.go (cell n r c) (qs.reverse ++ []) (sideBits true n qs) =
      leastSpelling qs c := by
    apply leastSpelling_go_map fun p q h => Nat.add_right_cancel h
    · intro q _
      exact testBit_cell_column c q hr
    · intro q _
      have hnew : q + side true n ∉ qs := add_not_mem hqs q
      simp [hnew]
  unfold bothSides leastSpelling at *
  rw [leastSpelling_go_append, hrows, hcolumns]

theorem lowest_lt (qs : List Nat) (hx : x < twoPow n) : lowest qs x < twoPow n := by
  rw [lt_twoPow_iff] at hx ⊢
  intro q hq
  rw [testBit_lowest, hx q hq, Bool.false_and]

theorem lowest_nil (x : Nat) : lowest [] x = x := by
  apply Nat.eq_of_testBit_eq
  intro q
  rw [testBit_lowest, decide_eq_false List.not_mem_nil, Bool.not_false, Bool.and_true]

theorem cell_eq_cell_iff {r c z w : Nat} (hr : r < twoPow n) (hz : z < twoPow n) :
    cell n r c = cell n z w ↔ r = z ∧ c = w := by
  constructor
  · intro h
    constructor
    · have hmod := congrArg (fun y => y % twoPow n) h
      simpa [cell, Nat.mod_eq_of_lt hr, Nat.mod_eq_of_lt hz] using hmod
    · have hdiv := congrArg (fun y => y / twoPow n) h
      simpa [cell, Nat.add_mul_div_right _ _ (twoPow_pos n), Nat.div_eq_of_lt hr,
        Nat.div_eq_of_lt hz] using hdiv
  · rintro ⟨rfl, rfl⟩
    rfl

theorem lowest_cell {ps rows columns : List Nat} {r : Nat} (c : Nat) (hr : r < twoPow n)
    (hrows : forall q, q < n -> (q ∈ ps ↔ q ∈ rows))
    (hcolumns : forall q, q + n ∈ ps ↔ q ∈ columns) :
    lowest ps (cell n r c) = cell n (lowest rows r) (lowest columns c) := by
  apply Nat.eq_of_testBit_eq
  intro q
  rw [testBit_lowest, testBit_cell c q hr, testBit_cell _ q (lowest_lt rows hr)]
  by_cases hq : q < n
  · rw [if_pos hq, if_pos hq, testBit_lowest, decide_eq_decide.mpr (hrows q hq)]
  · have hplace : q - n + n = q := Nat.sub_add_cancel (Nat.le_of_not_lt hq)
    have hmem := hcolumns (q - n)
    rw [hplace] at hmem
    rw [if_neg hq, if_neg hq, testBit_lowest, decide_eq_decide.mpr hmem]

theorem lowest_rows {r : Nat} (c : Nat) (hqs : forall q, q ∈ qs -> q < n)
    (hr : r < twoPow n) : lowest qs (cell n r c) = cell n (lowest qs r) c := by
  have hnone : forall q, q + n ∈ qs ↔ q ∈ ([] : List Nat) := fun q =>
    ⟨fun h => absurd h (add_not_mem hqs q), fun h => absurd h List.not_mem_nil⟩
  rw [lowest_cell c hr (fun _ _ => Iff.rfl) hnone, lowest_nil]

theorem lowest_columns {r : Nat} (c : Nat) (hr : r < twoPow n) :
    lowest (sideBits true n qs) (cell n r c) = cell n r (lowest qs c) := by
  have hnone : forall q, q < n -> (q ∈ sideBits true n qs ↔ q ∈ ([] : List Nat)) := fun q hq =>
    ⟨fun h => absurd h (not_mem_sideBits_true hq), fun h => absurd h List.not_mem_nil⟩
  rw [lowest_cell c hr hnone fun q => mem_sideBits_iff, lowest_nil]

theorem lowest_bothSides {r : Nat} (c : Nat) (hqs : forall q, q ∈ qs -> q < n)
    (hr : r < twoPow n) :
    lowest (bothSides n qs) (cell n r c) = cell n (lowest qs r) (lowest qs c) := by
  apply lowest_cell c hr
  · intro q hq
    unfold bothSides
    rw [List.mem_append, or_iff_left (not_mem_sideBits_true hq)]
  · intro q
    unfold bothSides
    rw [List.mem_append, or_iff_right (add_not_mem hqs q)]
    exact mem_sideBits_iff

end Basis
end MixedState
