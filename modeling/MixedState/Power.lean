/-!
# Powers of two and of ten

Powers with names of their own, which do not unfold into large numerals.
-/

namespace MixedState

def twoPow (n : Nat) : Nat :=
  Nat.pow 2 n

def tenPow (n : Nat) : Nat :=
  Nat.pow 10 n

@[simp] theorem twoPow_zero : twoPow 0 = 1 :=
  rfl

theorem twoPow_succ (n : Nat) : twoPow (n + 1) = twoPow n * 2 :=
  rfl

theorem twoPow_pos (n : Nat) : 0 < twoPow n :=
  Nat.pow_pos (by decide)

theorem twoPow_add (m n : Nat) : twoPow (m + n) = twoPow m * twoPow n :=
  Nat.pow_add 2 m n

end MixedState
