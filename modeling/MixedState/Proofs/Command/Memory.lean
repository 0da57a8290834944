import Mathlib.Order.Bounds.Basic
import MixedState.Command.Memory
import MixedState.Proofs.Basis.Bits
import MixedState.Proofs.Outcome

/-!
# The estimate of the memory

The estimate is the least number of units that hold the entries of a register, as long as
that number fits a word.  Past it there is no estimate: the shift leaves the word, and the
command crashes, although it can spell out any number of entries.
-/

namespace MixedState

def HoldsEntries (n units : Nat) : Prop :=
  16 * 4 ^ n ≤ units * 2 ^ 20

variable {n n' units megabytes megabytes' : Nat}

theorem sixteen_mul_four_pow (n : Nat) : 16 * 4 ^ n = 2 ^ (2 * n + 4) := by
  rw [Nat.pow_add, Nat.pow_mul, Nat.mul_comm]

theorem holdsEntries_iff : HoldsEntries n units ↔ twoPow (2 * n + 4 - 20) ≤ units := by
  unfold HoldsEntries twoPow
  rw [sixteen_mul_four_pow, Nat.pow_eq]
  by_cases hsmall : 2 * n + 4 ≤ 20
  · have hbytes : 2 ^ (2 * n + 4) ≤ 2 ^ 20 := Nat.pow_le_pow_right Nat.two_pos hsmall
    have hpos : 0 < 2 ^ (2 * n + 4) := Nat.two_pow_pos _
    rw [Nat.sub_eq_zero_of_le hsmall, Nat.pow_zero]
    constructor
    · intro h
      by_contra hnone
      obtain rfl : units = 0 := by omega
      omega
    · intro h
      exact Nat.le_trans hbytes (Nat.le_mul_of_pos_left _ h)
  · have hsplit : 2 * n + 4 = 2 * n + 4 - 20 + 20 := by omega
    rw [hsplit, Nat.pow_add, Nat.add_sub_cancel, Nat.mul_le_mul_right_iff (by decide)]

theorem isLeast_holdsEntries (n : Nat) :
    IsLeast {units | HoldsEntries n units} (twoPow (2 * n + 4 - 20)) :=
  ⟨holdsEntries_iff.mpr (Nat.le_refl _), fun _ h => holdsEntries_iff.mp h⟩

theorem HoldsEntries.mono (h : HoldsEntries n' units) (hn : n ≤ n') : HoldsEntries n units := by
  rw [holdsEntries_iff] at h ⊢
  exact Nat.le_trans (twoPow_le_twoPow (by omega)) h

theorem exists_holdsEntries_iff :
    (exists units, units < wordSize ∧ HoldsEntries n units) ↔ n < 40 := by
  have hword : wordSize = twoPow wordBits := by decide
  constructor
  · rintro ⟨units, hlt, hunits⟩
    have hless := Nat.lt_of_le_of_lt (holdsEntries_iff.mp hunits) hlt
    rw [hword] at hless
    have hshift : 2 * n + 4 - 20 < wordBits := by
      by_contra hnot
      exact Nat.not_lt.mpr (twoPow_le_twoPow (Nat.not_lt.mp hnot)) hless
    unfold wordBits at hshift
    omega
  · intro hn
    refine ⟨twoPow (2 * n + 4 - 20), ?_, (isLeast_holdsEntries n).1⟩
    rw [hword]
    exact twoPow_lt_twoPow (show 2 * n + 4 - 20 < 64 by omega)

/-!
## The estimate
-/

theorem requiredMegabytes_of_lt (hn : n < 40) :
    requiredMegabytes n = .ok (twoPow (2 * n + 4 - 20)) := by
  have hword : 2 * n + 4 < wordSize := Nat.lt_trans (by omega : 2 * n + 4 < 84) (by decide)
  unfold requiredMegabytes
  rw [orCrash_of_true (decide_eq_true hword), ok_bind]
  exact checkedShift_of_lt (show 2 * n + 4 - 20 < 64 by omega)

theorem requiredMegabytes_of_le (hn : 40 ≤ n) : requiredMegabytes n = crash := by
  have hshift : ¬2 * n + 4 - 20 < wordBits := Nat.not_lt.mpr (show 64 ≤ 2 * n + 4 - 20 by omega)
  unfold requiredMegabytes orCrash checkedShift
  rw [if_neg hshift]
  split <;> rfl

theorem requiredMegabytes_eq_ok_iff :
    requiredMegabytes n = .ok megabytes ↔ n < 40 ∧ twoPow (2 * n + 4 - 20) = megabytes := by
  by_cases hn : n < 40
  · simp [requiredMegabytes_of_lt hn, hn]
  · simp [requiredMegabytes_of_le (Nat.not_lt.mp hn), hn, crash]

theorem requiredMegabytes_eq_crash_iff : requiredMegabytes n = crash ↔ 40 ≤ n := by
  by_cases hn : n < 40
  · simp [requiredMegabytes_of_lt hn, hn, crash]
  · simp [requiredMegabytes_of_le (Nat.not_lt.mp hn), Nat.not_lt.mp hn]

theorem requiredMegabytes_mono (hn : n ≤ n') (h : requiredMegabytes n' = .ok megabytes') :
    exists megabytes, requiredMegabytes n = .ok megabytes ∧ megabytes ≤ megabytes' := by
  rcases requiredMegabytes_eq_ok_iff.mp h with ⟨hn', rfl⟩
  refine ⟨_, requiredMegabytes_of_lt (Nat.lt_of_le_of_lt hn hn'), ?_⟩
  exact (isLeast_holdsEntries n).2 ((isLeast_holdsEntries n').1.mono hn)

/-!
## The printed line
-/

theorem amplitudeCount_of_lt (hn : n < 40) : amplitudeCount n = toString (4 ^ n) := by
  unfold amplitudeCount twoPow
  rw [if_pos (by omega), Nat.pow_eq, Nat.pow_mul]

theorem memoryLine_eq_ok_iff {line : String} :
    memoryLine n = .ok line ↔ exists megabytes, requiredMegabytes n = .ok megabytes ∧
      line = s!"→ {n} qubits: {megabytes} MB ({4 ^ n} complex amplitudes)\n" := by
  unfold memoryLine
  rw [bind_eq_ok_iff]
  refine exists_congr fun megabytes => and_congr_right fun h => ?_
  rw [amplitudeCount_of_lt (requiredMegabytes_eq_ok_iff.mp h).1]
  constructor
  · intro hline
    cases hline
    rfl
  · rintro rfl
    rfl

theorem memoryLine_eq_crash_iff : memoryLine n = crash ↔ 40 ≤ n := by
  unfold memoryLine
  by_cases hn : n < 40
  · rw [requiredMegabytes_of_lt hn, ok_bind]
    exact ⟨nofun, fun hmany => absurd hn (Nat.not_lt.mpr hmany)⟩
  · rw [requiredMegabytes_of_le (Nat.not_lt.mp hn)]
    exact ⟨fun _ => Nat.not_lt.mp hn, fun _ => rfl⟩

/-- The estimate is the least number of units that hold the entries, and the command prints
it.  There is one exactly where a word holds that number, which is below 40 qubits, and a
smaller register has no larger one.  From 40 qubits on the shift crashes. -/
theorem requiredMegabytes_least (n : Nat) :
    (forall megabytes, requiredMegabytes n = .ok megabytes ↔
      (exists units, units < wordSize ∧ HoldsEntries n units) ∧
        IsLeast {units | HoldsEntries n units} megabytes) ∧
    (forall line, memoryLine n = .ok line ↔ exists megabytes,
      requiredMegabytes n = .ok megabytes ∧
        line = s!"→ {n} qubits: {megabytes} MB ({4 ^ n} complex amplitudes)\n") ∧
    (requiredMegabytes n = crash ↔ 40 ≤ n) ∧ (memoryLine n = crash ↔ 40 ≤ n) ∧
    forall n' megabytes', n ≤ n' -> requiredMegabytes n' = .ok megabytes' ->
      exists megabytes, requiredMegabytes n = .ok megabytes ∧ megabytes ≤ megabytes' := by
  refine ⟨?_, fun _ => memoryLine_eq_ok_iff, requiredMegabytes_eq_crash_iff,
    memoryLine_eq_crash_iff, fun _ _ => requiredMegabytes_mono⟩
  intro megabytes
  rw [requiredMegabytes_eq_ok_iff, exists_holdsEntries_iff]
  refine and_congr_right fun _ => ⟨?_, fun hleast => (isLeast_holdsEntries n).unique hleast⟩
  rintro rfl
  exact isLeast_holdsEntries n

theorem requiredMegabytes_least_limit :
    requiredMegabytes 39 = .ok 4611686018427387904 ∧ HoldsEntries 39 4611686018427387904 ∧
      (exists megabytes, requiredMegabytes 8 = .ok megabytes ∧ megabytes ≤ 4611686018427387904) ∧
      requiredMegabytes 40 = crash ∧ memoryLine 40 = crash := by
  have hlargest : requiredMegabytes 39 = .ok 4611686018427387904 := rfl
  rcases requiredMegabytes_least 39 with ⟨hestimate, _⟩
  rcases requiredMegabytes_least 8 with ⟨_, _, _, _, hmono⟩
  rcases requiredMegabytes_least 40 with ⟨_, _, hcrash, hline, _⟩
  exact ⟨hlargest, ((hestimate _).mp hlargest).2.1, hmono 39 _ (by decide) hlargest,
    hcrash.mpr (by decide), hline.mpr (by decide)⟩

end MixedState
