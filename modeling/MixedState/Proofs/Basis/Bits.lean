import Mathlib.Tactic.Ring
import MixedState.Basis.Bits

/-!
# Gathering and overwriting bits

Every index operation is described by the bits it leaves: `gather` reads the
bits at the listed positions, `overwrite` replaces them.  For a list without
repetition the two are inverse to each other.
-/

namespace MixedState

theorem twoPow_lt_twoPow {m n : Nat} (h : m < n) : twoPow m < twoPow n :=
  Nat.pow_lt_pow_right (by decide) h

theorem twoPow_le_twoPow {m n : Nat} (h : m ≤ n) : twoPow m ≤ twoPow n :=
  Nat.pow_le_pow_right (by decide) h

theorem twoPow_ne_one {n : Nat} (h : 2 ≤ n) : twoPow n ≠ 1 :=
  (Nat.one_lt_two_pow (by omega)).ne'

theorem twoPow_two_mul (n : Nat) : twoPow (2 * n) = twoPow n * twoPow n := by
  rw [Nat.two_mul, twoPow_add]

namespace Basis

theorem testBit_twoPow (q i : Nat) : (twoPow q).testBit i = decide (q = i) :=
  Nat.testBit_two_pow

theorem lt_twoPow_iff (x n : Nat) :
    x < twoPow n ↔ forall q, n ≤ q -> x.testBit q = false := by
  constructor
  · intro h q hq
    apply Nat.testBit_lt_two_pow
    exact lt_of_lt_of_le h (twoPow_le_twoPow hq)
  · exact Nat.lt_pow_two_of_testBit x

/-!
## Masks
-/

theorem testBit_bitMask (qs : List Nat) (i : Nat) :
    (bitMask qs).testBit i = decide (i ∈ qs) := by
  induction qs with
  | nil =>
      simp
  | cons q rest ih =>
      rw [bitMask_cons, Nat.testBit_or, testBit_twoPow, ih]
      by_cases h : q = i
      · simp [h]
      · have h' : ¬i = q := fun heq => h heq.symm
        simp [h, h']

theorem testBit_clearBits (mask x i : Nat) :
    (clearBits mask x).testBit i = (x.testBit i && !mask.testBit i) := by
  unfold clearBits
  rw [Nat.testBit_xor, Nat.testBit_and]
  cases x.testBit i <;> cases mask.testBit i <;> rfl

theorem covers_iff (mask x : Nat) :
    covers mask x = true ↔ forall i, mask.testBit i = true -> x.testBit i = true := by
  unfold covers
  rw [beq_iff_eq]
  constructor
  · intro h i hi
    have hbit := congrArg (fun y => y.testBit i) h
    simp only [Nat.testBit_and, hi, Bool.and_true] at hbit
    exact hbit
  · intro h
    apply Nat.eq_of_testBit_eq
    intro i
    rw [Nat.testBit_and]
    cases hi : mask.testBit i with
    | false =>
        simp
    | true =>
        simp [h i hi]

theorem covers_bitMask_iff (qs : List Nat) (x : Nat) :
    covers (bitMask qs) x = true ↔ forall q, q ∈ qs -> x.testBit q = true := by
  rw [covers_iff]
  simp [testBit_bitMask]

theorem covers_bitMask_eq_all (qs : List Nat) (x : Nat) :
    covers (bitMask qs) x = qs.all x.testBit := by
  rw [Bool.eq_iff_iff, covers_bitMask_iff, List.all_eq_true]

/-!
## Gathering
-/

theorem gather_lt (qs : List Nat) (x : Nat) : gather qs x < twoPow qs.length := by
  induction qs with
  | nil =>
      simp
  | cons q rest ih =>
      have hbit := Bool.toNat_lt (x.testBit q)
      rw [gather_cons, List.length_cons, twoPow_succ]
      omega

theorem testBit_gather {qs : List Nat} {j q : Nat} (x : Nat) (h : qs[j]? = some q) :
    (gather qs x).testBit j = x.testBit q := by
  induction qs generalizing j with
  | nil =>
      simp at h
  | cons p rest ih =>
      rw [gather_cons, Nat.add_comm]
      cases j with
      | zero =>
          have hpq : p = q := by simpa using h
          subst p
          cases hx : x.testBit q <;> simp
      | succ j =>
          rw [Nat.testBit_succ]
          have hhalf : (2 * gather rest x + (x.testBit p).toNat) / 2 = gather rest x := by
            have hbit := Bool.toNat_lt (x.testBit p)
            omega
          rw [hhalf]
          exact ih (by simpa using h)

theorem testBit_gather_eq (qs : List Nat) (x j : Nat) :
    (gather qs x).testBit j = (qs[j]?.map x.testBit).getD false := by
  cases hq : qs[j]? with
  | some q =>
      exact testBit_gather x hq
  | none =>
      have hlen := List.getElem?_eq_none_iff.mp hq
      exact (lt_twoPow_iff _ _).mp (gather_lt qs x) j hlen

theorem gather_eq_of_testBit {qs : List Nat} {x y : Nat} (hy : y < twoPow qs.length)
    (h : forall j q, qs[j]? = some q -> x.testBit q = y.testBit j) : gather qs x = y := by
  apply Nat.eq_of_testBit_eq
  intro j
  rw [testBit_gather_eq]
  cases hj : qs[j]? with
  | some q =>
      exact h j q hj
  | none =>
      exact ((lt_twoPow_iff y _).mp hy j (List.getElem?_eq_none_iff.mp hj)).symm

theorem gather_congr {qs : List Nat} {x y : Nat}
    (h : forall q, q ∈ qs -> x.testBit q = y.testBit q) : gather qs x = gather qs y := by
  induction qs with
  | nil =>
      rfl
  | cons q rest ih =>
      rw [gather_cons, gather_cons, h q List.mem_cons_self,
        ih fun p hp => h p (List.mem_cons_of_mem q hp)]

theorem gather_map {qs : List Nat} {f : Nat -> Nat} {x y : Nat}
    (h : forall q, q ∈ qs -> x.testBit (f q) = y.testBit q) :
    gather (qs.map f) x = gather qs y := by
  induction qs with
  | nil =>
      rfl
  | cons q rest ih =>
      rw [List.map_cons, gather_cons, gather_cons, h q List.mem_cons_self,
        ih fun p hp => h p (List.mem_cons_of_mem q hp)]

theorem gather_append (ps qs : List Nat) (x : Nat) :
    gather (ps ++ qs) x = gather ps x + twoPow ps.length * gather qs x := by
  induction ps with
  | nil =>
      simp
  | cons p rest ih =>
      rw [List.cons_append, gather_cons, gather_cons, ih, List.length_cons, twoPow_succ]
      ring

/-!
## The lowest bit
-/

theorem testBit_zero_bit (b : Bool) (y : Nat) : (b.toNat + 2 * y).testBit 0 = b := by
  cases b <;> simp

theorem bit_div_two (b : Bool) (y : Nat) : (b.toNat + 2 * y) / 2 = y := by
  have hb := Bool.toNat_lt b
  omega

theorem bit_eq_bit_iff (b c : Bool) (x y : Nat) :
    b.toNat + 2 * x = c.toNat + 2 * y ↔ b = c ∧ x = y := by
  have hb := Bool.toNat_lt b
  have hc := Bool.toNat_lt c
  constructor
  · intro h
    refine ⟨?_, by omega⟩
    cases b <;> cases c <;> simp at h ⊢ <;> omega
  · rintro ⟨rfl, rfl⟩
    rfl

theorem range_mul_two (n : Nat) :
    List.range (n * 2) = (List.range n).flatMap fun i => [2 * i, 2 * i + 1] := by
  induction n with
  | zero =>
      rfl
  | succ n ih =>
      rw [Nat.succ_mul, List.range_succ, List.range_succ, List.range_succ,
        List.flatMap_append, ← ih, List.append_assoc, Nat.mul_comm n 2]
      rfl

/-!
## Scattering
-/

theorem testBit_scatter_of_not_mem {qs : List Nat} {q : Nat} (y : Nat) (h : q ∉ qs) :
    (scatter qs y).testBit q = false := by
  induction qs generalizing y with
  | nil =>
      simp
  | cons p rest ih =>
      rw [List.mem_cons, not_or] at h
      have hpq : ¬p = q := fun heq => h.1 heq.symm
      rw [scatter_cons, Nat.testBit_or, ih (y / 2) h.2]
      split <;> simp [testBit_twoPow, hpq]

theorem testBit_scatter {qs : List Nat} {j q : Nat} (y : Nat) (hnodup : qs.Nodup)
    (h : qs[j]? = some q) : (scatter qs y).testBit q = y.testBit j := by
  induction qs generalizing y j with
  | nil =>
      simp at h
  | cons p rest ih =>
      rw [List.nodup_cons] at hnodup
      rw [scatter_cons, Nat.testBit_or]
      cases j with
      | zero =>
          have hpq : p = q := by simpa using h
          subst p
          rw [testBit_scatter_of_not_mem (y / 2) hnodup.1]
          cases hy : y.testBit 0 <;> simp [testBit_twoPow]
      | succ j =>
          have hrest : rest[j]? = some q := by simpa using h
          have hpq : ¬p = q := by
            intro heq
            exact hnodup.1 (heq ▸ List.mem_of_getElem? hrest)
          rw [ih (y / 2) hnodup.2 hrest, Nat.testBit_succ]
          split <;> simp [testBit_twoPow, hpq]

/-!
## Overwriting
-/

/-- `x` with its bits at the positions replaced by those of `y`. -/
def overwrite (qs : List Nat) (x y : Nat) : Nat :=
  clearBits (bitMask qs) x ||| scatter qs y

theorem testBit_overwrite_of_not_mem {qs : List Nat} {q : Nat} (x y : Nat)
    (h : q ∉ qs) : (overwrite qs x y).testBit q = x.testBit q := by
  unfold overwrite
  rw [Nat.testBit_or, testBit_clearBits, testBit_bitMask, testBit_scatter_of_not_mem y h]
  simp [h]

theorem testBit_overwrite {qs : List Nat} {j q : Nat} (x y : Nat) (hnodup : qs.Nodup)
    (h : qs[j]? = some q) : (overwrite qs x y).testBit q = y.testBit j := by
  have hmem : q ∈ qs := List.mem_of_getElem? h
  unfold overwrite
  rw [Nat.testBit_or, testBit_clearBits, testBit_bitMask, testBit_scatter y hnodup h]
  simp [hmem]

theorem eq_overwrite_gather {qs : List Nat} {x z : Nat} (hnodup : qs.Nodup)
    (h : forall q, q ∉ qs -> z.testBit q = x.testBit q) :
    z = overwrite qs x (gather qs z) := by
  apply Nat.eq_of_testBit_eq
  intro q
  by_cases hq : q ∈ qs
  · rcases List.mem_iff_getElem?.mp hq with ⟨j, hj⟩
    rw [testBit_overwrite x _ hnodup hj, testBit_gather z hj]
  · rw [testBit_overwrite_of_not_mem x _ hq, h q hq]

theorem overwrite_gather {qs : List Nat} (x : Nat) (hnodup : qs.Nodup) :
    overwrite qs x (gather qs x) = x :=
  (eq_overwrite_gather hnodup fun _ _ => rfl).symm

theorem gather_overwrite {qs : List Nat} {y : Nat} (x : Nat) (hnodup : qs.Nodup)
    (hy : y < twoPow qs.length) : gather qs (overwrite qs x y) = y :=
  gather_eq_of_testBit hy fun _ _ hj => testBit_overwrite x y hnodup hj

theorem overwrite_overwrite {qs : List Nat} (x y z : Nat) (hnodup : qs.Nodup) :
    overwrite qs (overwrite qs x y) z = overwrite qs x z := by
  apply Nat.eq_of_testBit_eq
  intro q
  by_cases hq : q ∈ qs
  · rcases List.mem_iff_getElem?.mp hq with ⟨j, hj⟩
    rw [testBit_overwrite _ z hnodup hj, testBit_overwrite x z hnodup hj]
  · rw [testBit_overwrite_of_not_mem _ z hq, testBit_overwrite_of_not_mem x y hq,
      testBit_overwrite_of_not_mem x z hq]

theorem gather_range {n x : Nat} (hx : x < twoPow n) : gather (List.range n) x = x := by
  apply gather_eq_of_testBit (by rw [List.length_range]; exact hx)
  intro j q hj
  rcases List.getElem?_eq_some_iff.mp hj with ⟨_, hq⟩
  rw [List.getElem_range] at hq
  rw [hq]

theorem overwrite_lt {qs : List Nat} {x n : Nat} (y : Nat)
    (hqs : forall q, q ∈ qs -> q < n) (hx : x < twoPow n) :
    overwrite qs x y < twoPow n := by
  rw [lt_twoPow_iff] at hx ⊢
  intro q hq
  have hnot : q ∉ qs := fun hmem => absurd (hqs q hmem) (by omega)
  rw [testBit_overwrite_of_not_mem x y hnot, hx q hq]

theorem xor_twoPow_lt {x q n : Nat} (hq : q < n) (hx : x < twoPow n) :
    x ^^^ twoPow q < twoPow n :=
  Nat.xor_lt_two_pow hx (twoPow_lt_twoPow hq)

theorem scatter_lt {qs : List Nat} {n : Nat} (hqs : forall q, q ∈ qs -> q < n) (y : Nat) :
    scatter qs y < twoPow n := by
  rw [lt_twoPow_iff]
  intro i hi
  exact testBit_scatter_of_not_mem y fun hmem => Nat.not_le_of_lt (hqs i hmem) hi

theorem bitMask_lt {qs : List Nat} {n : Nat} (hqs : forall q, q ∈ qs -> q < n) :
    bitMask qs < twoPow n := by
  rw [lt_twoPow_iff]
  intro i hi
  rw [testBit_bitMask]
  exact decide_eq_false fun h => absurd (hqs i h) (by omega)

theorem xor_bitMask_lt {qs : List Nat} {x n : Nat} (hqs : forall q, q ∈ qs -> q < n)
    (hx : x < twoPow n) : x ^^^ bitMask qs < twoPow n :=
  Nat.xor_lt_two_pow hx (bitMask_lt hqs)

/-!
## Rows and columns
-/

/-- The index of the entry in row `r` and column `c` of `n` qubits. -/
def cell (n r c : Nat) : Nat :=
  r + c * twoPow n

theorem testBit_cell {n r : Nat} (c q : Nat) (hr : r < twoPow n) :
    (cell n r c).testBit q = if q < n then r.testBit q else c.testBit (q - n) := by
  have hcell : cell n r c = 2 ^ n * c + r := by
    change r + c * 2 ^ n = _
    ring
  rw [hcell, Nat.testBit_two_pow_mul_add c hr]

theorem testBit_cell_row {n r q : Nat} (c : Nat) (hr : r < twoPow n) (hq : q < n) :
    (cell n r c).testBit q = r.testBit q := by
  rw [testBit_cell c q hr, if_pos hq]

theorem testBit_cell_column {n r : Nat} (c q : Nat) (hr : r < twoPow n) :
    (cell n r c).testBit (q + n) = c.testBit q := by
  rw [testBit_cell c (q + n) hr, if_neg (by omega), Nat.add_sub_cancel]

theorem cell_lt {n r c : Nat} (hr : r < twoPow n) (hc : c < twoPow n) :
    cell n r c < twoPow (2 * n) := by
  have hrow : (c + 1) * twoPow n ≤ twoPow n * twoPow n :=
    Nat.mul_le_mul_right (twoPow n) hc
  rw [Nat.succ_mul] at hrow
  rw [twoPow_two_mul]
  unfold cell
  omega

theorem cell_eq_zero_iff {n r c : Nat} : cell n r c = 0 ↔ r = 0 ∧ c = 0 := by
  unfold cell
  rw [Nat.add_eq_zero_iff, Nat.mul_eq_zero]
  simp [Nat.ne_of_gt (twoPow_pos n)]

theorem cell_mod {n r : Nat} (c : Nat) (hr : r < twoPow n) : cell n r c % twoPow n = r := by
  unfold cell
  rw [Nat.add_mul_mod_self_right, Nat.mod_eq_of_lt hr]

theorem cell_div {n r : Nat} (c : Nat) (hr : r < twoPow n) : cell n r c / twoPow n = c := by
  unfold cell
  rw [Nat.add_mul_div_right _ _ (twoPow_pos _), Nat.div_eq_of_lt hr, Nat.zero_add]

theorem cell_mod_div (n x : Nat) : cell n (x % twoPow n) (x / twoPow n) = x := by
  unfold cell
  rw [Nat.mul_comm]
  exact Nat.mod_add_div x (twoPow n)

theorem eq_cell {n x : Nat} (hx : x < twoPow (2 * n)) :
    exists r c, r < twoPow n ∧ c < twoPow n ∧ x = cell n r c := by
  refine ⟨x % twoPow n, x / twoPow n, Nat.mod_lt _ (twoPow_pos n), ?_, (cell_mod_div n x).symm⟩
  rw [Nat.div_lt_iff_lt_mul (twoPow_pos n), ← twoPow_two_mul]
  exact hx

end Basis
end MixedState
