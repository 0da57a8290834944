import MixedState.Proofs.Basis.Frame

/-!
# Row bits and column bits

In a buffer of `n` qubits, qubit `q` has the row bit `q` and the column bit
`q + n`.
-/

namespace MixedState

open MixedState.Basis

def side (onColumns : Bool) (n : Nat) : Nat :=
  if onColumns then n else 0

theorem side_le (onColumns : Bool) (n : Nat) : side onColumns n ≤ n := by
  cases onColumns with
  | false =>
      exact Nat.zero_le n
  | true =>
      exact Nat.le_refl n

def sideBits (onColumns : Bool) (n : Nat) (qs : List Nat) : List Nat :=
  qs.map fun q => q + side onColumns n

/-- The row bits of qubits and then their column bits. -/
def bothSides (n : Nat) (qs : List Nat) : List Nat :=
  qs ++ sideBits true n qs

variable {onColumns : Bool} {n : Nat} {qs : List Nat}

@[simp] theorem sideBits_false (n : Nat) (qs : List Nat) : sideBits false n qs = qs := by
  change qs.map (fun q => q + 0) = qs
  simp

theorem sideBits_append (onColumns : Bool) (n : Nat) (ps qs : List Nat) :
    sideBits onColumns n (ps ++ qs) = sideBits onColumns n ps ++ sideBits onColumns n qs :=
  List.map_append

theorem sideBits_singleton (onColumns : Bool) (n q : Nat) :
    sideBits onColumns n [q] = [q + side onColumns n] :=
  rfl

theorem length_sideBits (onColumns : Bool) (n : Nat) (qs : List Nat) :
    (sideBits onColumns n qs).length = qs.length :=
  List.length_map _

theorem mem_sideBits_iff {q : Nat} : q + side onColumns n ∈ sideBits onColumns n qs ↔ q ∈ qs := by
  unfold sideBits
  rw [List.mem_map]
  constructor
  · rintro ⟨p, hp, heq⟩
    have hpq : p = q := by omega
    exact hpq ▸ hp
  · intro h
    exact ⟨q, h, rfl⟩

theorem lt_of_mem_sideBits (hqs : forall q, q ∈ qs -> q < n) :
    forall p, p ∈ sideBits onColumns n qs -> p < 2 * n := by
  intro p hp
  rcases List.mem_map.mp hp with ⟨q, hq, rfl⟩
  have hle := side_le onColumns n
  have hqn := hqs q hq
  omega

theorem sideBits_lt_wordBits (hn : 2 * n < wordBits) (hqs : forall q, q ∈ qs -> q < n) :
    forall p, p ∈ sideBits onColumns n qs -> p < wordBits := by
  intro p hp
  have hlt := lt_of_mem_sideBits hqs p hp
  omega

theorem nodup_sideBits (hnodup : qs.Nodup) : (sideBits onColumns n qs).Nodup :=
  hnodup.map fun _ _ h => Nat.add_right_cancel h

theorem length_bothSides (n : Nat) (qs : List Nat) :
    (bothSides n qs).length = 2 * qs.length := by
  unfold bothSides
  rw [List.length_append, length_sideBits, Nat.two_mul]

theorem lt_of_mem_bothSides (hqs : forall q, q ∈ qs -> q < n) :
    forall p, p ∈ bothSides n qs -> p < 2 * n := by
  intro p hp
  rcases List.mem_append.mp hp with hp | hp
  · have hlt := hqs p hp
    omega
  · exact lt_of_mem_sideBits hqs p hp

theorem bothSides_lt_wordBits (hn : 2 * n < wordBits) (hqs : forall q, q ∈ qs -> q < n) :
    forall p, p ∈ bothSides n qs -> p < wordBits := by
  intro p hp
  have hlt := lt_of_mem_bothSides hqs p hp
  omega

theorem nodup_bothSides (hnodup : qs.Nodup) (hqs : forall q, q ∈ qs -> q < n) :
    (bothSides n qs).Nodup := by
  refine List.nodup_append.mpr ⟨hnodup, nodup_sideBits hnodup, ?_⟩
  intro p hp q hq heq
  have hlt := hqs p hp
  rcases List.mem_map.mp hq with ⟨q', _, rfl⟩
  change p = q' + n at heq
  omega

theorem gather_sideBits_cell {r c : Nat} (hqs : forall q, q ∈ qs -> q < n)
    (hr : r < twoPow n) (hc : c < twoPow n) :
    gather (sideBits onColumns n qs) (cell n r c) = gather qs (if onColumns then c else r) := by
  cases onColumns with
  | false =>
      have hrows := (Frame.rows n c).gather_map hqs hr
      rw [List.map_id] at hrows
      rw [sideBits_false]
      exact hrows
  | true =>
      exact (Frame.columns hr).gather_map hqs hc

theorem lt_wordBits_of_lt (hn : 2 * n < wordBits) (hqs : forall q, q ∈ qs -> q < n) :
    forall q, q ∈ qs -> q < wordBits := by
  intro q hq
  have hlt := hqs q hq
  omega

theorem shiftPositions_eq_ok {shift : Nat} (hshift : shift < wordBits)
    (hqs : forall q, q ∈ qs -> q < wordBits) :
    shiftPositions shift qs = .ok (qs.map fun q => q + shift) := by
  have hsmall : (qs.all fun q => q + shift < wordSize) = true := by
    rw [List.all_eq_true]
    intro q hq
    have hlt := hqs q hq
    have hwide : 2 * wordBits < wordSize := by decide
    exact decide_eq_true (by omega)
  unfold shiftPositions
  rw [if_pos hsmall]

end MixedState
