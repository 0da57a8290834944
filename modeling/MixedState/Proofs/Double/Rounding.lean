import Mathlib.Tactic.Linarith
import Mathlib.Tactic.Ring

/-!
# Rounding of doubles

A number of finer units is rounded to the nearest one that has 53 significant bits, ties to
even.  Rounding keeps the order, and changes no number that fits.
-/

namespace MixedState
namespace Double

/-- The integer nearest to `m / 2 ^ n`, the even one of two. -/
def nearest (m n : Nat) : Nat :=
  if 2 * (m % 2 ^ n) < 2 ^ n then m / 2 ^ n
  else if 2 * (m % 2 ^ n) = 2 ^ n then m / 2 ^ n + m / 2 ^ n % 2
  else m / 2 ^ n + 1

/-- The last place of a number with `fine` places below the last one of all doubles. -/
def grain (fine m : Nat) : Nat :=
  max (m.log2 + 1 - 53) fine

/-- A number of units of which `2 ^ fine` make one unit of doubles, rounded to such units. -/
def rounded (fine m : Nat) : Nat :=
  nearest m (grain fine m) * 2 ^ (grain fine m - fine)

def Fits (v : Nat) : Prop :=
  exists m x, m < 2 ^ 53 ∧ v = m * 2 ^ x

/-!
## The nearest integer
-/

theorem le_nearest (m n : Nat) : m / 2 ^ n ≤ nearest m n := by
  unfold nearest
  split
  · exact Nat.le_refl _
  · split <;> omega

theorem nearest_le (m n : Nat) : nearest m n ≤ m / 2 ^ n + 1 := by
  unfold nearest
  split
  · omega
  · split <;> omega

theorem nearest_mono {m m' : Nat} (n : Nat) (h : m ≤ m') : nearest m n ≤ nearest m' n := by
  have hquotient : m / 2 ^ n ≤ m' / 2 ^ n := Nat.div_le_div_right h
  rcases Nat.eq_or_lt_of_le hquotient with hsame | hless
  · have hm := Nat.div_add_mod m (2 ^ n)
    have hm' := Nat.div_add_mod m' (2 ^ n)
    rw [hsame] at hm
    have hrest : m % 2 ^ n ≤ m' % 2 ^ n := by omega
    unfold nearest
    rw [hsame]
    split <;> split <;> (try split) <;> (try split) <;> omega
  · exact Nat.le_trans (nearest_le m n) (Nat.le_trans hless (le_nearest m' n))

theorem nearest_mul (m n j : Nat) : nearest (m * 2 ^ j) (n + j) = nearest m n := by
  have hpos := Nat.two_pow_pos j
  have hquotient : m * 2 ^ j / 2 ^ (n + j) = m / 2 ^ n := by
    rw [Nat.pow_add, Nat.mul_div_mul_right _ _ hpos]
  have hrest : m * 2 ^ j % 2 ^ (n + j) = m % 2 ^ n * 2 ^ j := by
    rw [Nat.pow_add, Nat.mul_mod_mul_right]
  have hlt : 2 * (m % 2 ^ n * 2 ^ j) < 2 ^ n * 2 ^ j ↔ 2 * (m % 2 ^ n) < 2 ^ n := by
    rw [← Nat.mul_assoc]
    exact Nat.mul_lt_mul_right hpos
  have heq : 2 * (m % 2 ^ n * 2 ^ j) = 2 ^ n * 2 ^ j ↔ 2 * (m % 2 ^ n) = 2 ^ n := by
    rw [← Nat.mul_assoc]
    exact Nat.mul_left_inj hpos.ne'
  unfold nearest
  rw [hquotient, hrest, Nat.pow_add]
  simp only [hlt, heq]

theorem nearest_mul_pow (m n : Nat) : nearest (m * 2 ^ n) n = m := by
  have h := nearest_mul m 0 n
  rw [Nat.zero_add] at h
  rw [h]
  unfold nearest
  rw [Nat.pow_zero, Nat.mod_one, Nat.div_one, if_pos (by decide)]

/-!
## Rounding keeps the order
-/

theorem lt_two_pow_grain (fine m : Nat) : m < 2 ^ (53 + grain fine m) := by
  have hlog : m < 2 ^ (m.log2 + 1) := Nat.lt_log2_self
  have hgrain : m.log2 + 1 - 53 ≤ grain fine m := Nat.le_max_left _ _
  exact Nat.lt_of_lt_of_le hlog (Nat.pow_le_pow_right Nat.two_pos (by omega))

theorem div_grain_lt (fine m : Nat) : m / 2 ^ grain fine m < 2 ^ 53 := by
  rw [Nat.div_lt_iff_lt_mul (Nat.two_pow_pos _), ← Nat.pow_add]
  exact lt_two_pow_grain fine m

theorem rounded_le_two_pow (fine m : Nat) : rounded fine m ≤ 2 ^ (53 + grain fine m - fine) := by
  have hfine : fine ≤ grain fine m := Nat.le_max_right _ _
  have hnearest : nearest m (grain fine m) ≤ 2 ^ 53 :=
    Nat.le_trans (nearest_le _ _) (div_grain_lt fine m)
  rw [Nat.add_sub_assoc hfine, Nat.pow_add]
  exact Nat.mul_le_mul_right _ hnearest

theorem two_pow_le_rounded {fine m : Nat} (h : fine < grain fine m) :
    2 ^ (52 + grain fine m - fine) ≤ rounded fine m := by
  unfold rounded
  have hgrain : grain fine m + 52 = m.log2 := by
    unfold grain at h ⊢
    omega
  have hm : m ≠ 0 := by
    rintro rfl
    rw [Nat.log2_zero] at hgrain
    omega
  have hlow : 2 ^ 52 ≤ m / 2 ^ grain fine m := by
    rw [Nat.le_div_iff_mul_le (Nat.two_pow_pos _), ← Nat.pow_add, Nat.add_comm, hgrain]
    exact Nat.log2_self_le hm
  rw [Nat.add_sub_assoc (Nat.le_of_lt h), Nat.pow_add]
  exact Nat.mul_le_mul_right _ (Nat.le_trans hlow (le_nearest _ _))

theorem log2_mono {m m' : Nat} (h : m ≤ m') : m.log2 ≤ m'.log2 := by
  by_cases hm : m = 0
  · rw [hm, Nat.log2_zero]
    exact Nat.zero_le _
  · exact (Nat.le_log2 (by omega)).mpr (Nat.le_trans (Nat.log2_self_le hm) h)

theorem grain_mono (fine : Nat) {m m' : Nat} (h : m ≤ m') : grain fine m ≤ grain fine m' := by
  have hlog := log2_mono h
  unfold grain
  omega

theorem rounded_mono (fine : Nat) {m m' : Nat} (h : m ≤ m') : rounded fine m ≤ rounded fine m' := by
  rcases Nat.eq_or_lt_of_le (grain_mono fine h) with hsame | hless
  · unfold rounded
    rw [hsame]
    exact Nat.mul_le_mul_right _ (nearest_mono _ h)
  · have hfine : fine ≤ grain fine m := Nat.le_max_right _ _
    -- A power of two lies between the places of the two.
    calc rounded fine m ≤ 2 ^ (53 + grain fine m - fine) := rounded_le_two_pow fine m
      _ ≤ 2 ^ (52 + grain fine m' - fine) := Nat.pow_le_pow_right Nat.two_pos (by omega)
      _ ≤ rounded fine m' := two_pow_le_rounded (by omega)

/-!
## Doubles are not rounded
-/

theorem grain_le {fine m k : Nat} (hfine : fine ≤ k) (hm : m < 2 ^ (53 + k)) :
    grain fine m ≤ k := by
  have hlog : m.log2 < 53 + k := by
    by_cases hzero : m = 0
    · rw [hzero, Nat.log2_zero]
      omega
    · exact (Nat.log2_lt hzero).mpr hm
  unfold grain
  omega

theorem rounded_of_fits {v : Nat} (fine : Nat) (h : Fits v) :
    rounded fine (v * 2 ^ fine) = v := by
  rcases h with ⟨m, x, hm, rfl⟩
  have hlt : m * 2 ^ x * 2 ^ fine < 2 ^ (53 + (x + fine)) := by
    rw [Nat.mul_assoc, ← Nat.pow_add, Nat.pow_add 2 53]
    exact Nat.mul_lt_mul_of_pos_right hm (Nat.two_pow_pos _)
  have hgrain := grain_le (Nat.le_add_left fine x) hlt
  have hfine : fine ≤ grain fine (m * 2 ^ x * 2 ^ fine) := Nat.le_max_right _ _
  unfold rounded
  generalize grain fine (m * 2 ^ x * 2 ^ fine) = g at hgrain hfine
  have hsplit : m * 2 ^ x * 2 ^ fine = m * 2 ^ (x + fine - g) * 2 ^ g := by
    rw [Nat.mul_assoc, Nat.mul_assoc, ← Nat.pow_add, ← Nat.pow_add, Nat.sub_add_cancel hgrain]
  rw [hsplit, nearest_mul_pow, Nat.mul_assoc, ← Nat.pow_add]
  congr 2
  omega

end Double
end MixedState
