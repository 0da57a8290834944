import MixedState.Proofs.Basis.Joined

/-!
# The enumeration of blocks

The places of a block are listed by doubling: the first place has zeros at the positions,
and each position repeats the list with its bit set.  So the list follows the order of the
positions, whatever order the zeros were inserted in, and block after block it comes to
every index of a register once.
-/

namespace MixedState
namespace Basis

/-!
## Doubling
-/

theorem scatter_double (q : Nat) (rest : List Nat) (i : Nat) :
    scatter (q :: rest) (2 * i) = scatter rest i := by
  rw [scatter_cons, Nat.mul_div_cancel_left i (by decide)]
  simp

theorem scatter_double_succ (q : Nat) (rest : List Nat) (i : Nat) :
    scatter (q :: rest) (2 * i + 1) = twoPow q ||| scatter rest i := by
  have hhalf : (2 * i + 1) / 2 = i := by omega
  rw [scatter_cons, hhalf]
  simp

theorem foldl_doubled (qs places : List Nat) :
    qs.foldl doubled places =
      (List.range (twoPow qs.length)).flatMap fun i => places.map fun x => x ||| scatter qs i := by
  -- What the first position doubles is doubled by the others as a whole.
  induction qs generalizing places with
  | nil =>
      simp
  | cons q rest ih =>
      have hpair : forall i, ([2 * i, 2 * i + 1].flatMap fun i =>
          places.map fun x => x ||| scatter (q :: rest) i) =
          (doubled places q).map fun x => x ||| scatter rest i := by
        intro i
        rw [List.flatMap_cons, List.flatMap_cons, List.flatMap_nil, List.append_nil,
          scatter_double, scatter_double_succ, doubled, List.map_append, List.map_map]
        congr 1
        apply List.map_congr_left
        intro x _
        exact (Nat.or_assoc x _ _).symm
      rw [List.foldl_cons, ih, List.length_cons, twoPow_succ, range_mul_two, List.flatMap_assoc]
      simp only [hpair]

/-- The list follows the positions, also where they descend. -/
example : [2, 0].foldl doubled [0] = [0, 4, 1, 5] := by
  decide

/-!
## The places of a block
-/

/-- The places of a block, the one that spells `i` at place `i`. -/
def blockPlaces (qs : List Nat) (k : Nat) : List Nat :=
  (List.range (twoPow qs.length)).map (blockIndex qs (sorted qs) k)

theorem length_blockPlaces (qs : List Nat) (k : Nat) :
    (blockPlaces qs k).length = twoPow qs.length := by
  unfold blockPlaces
  rw [List.length_map, List.length_range]

theorem foldl_doubled_spread (qs : List Nat) (k : Nat) :
    qs.foldl doubled [spread (sorted qs) k] = blockPlaces qs k := by
  rw [foldl_doubled]
  exact List.map_eq_flatMap.symm

theorem block_eq {qs : List Nat} (hlen : qs.length < wordBits)
    (hqs : forall q, q ∈ qs -> q + 1 < wordBits) (k : Nat) :
    Checked.block qs (sorted qs) k = (do
      allocate 8 (twoPow qs.length)
      return blockPlaces qs k) := by
  have hspread : ((sorted qs).all fun q => q + 1 < wordBits) = true := by
    rw [List.all_eq_true]
    exact fun q hq => decide_eq_true (hqs q (mem_sorted.mp hq))
  unfold Checked.block Checked.spread
  rw [checkedShift_of_lt hlen, ok_bind, orCrash_of_true hspread,
    addressable_eq_ok_iff.mpr fun q hq => Nat.lt_of_succ_lt (hqs q hq), ← foldl_doubled_spread]
  rfl

section Register

variable {n k : Nat} {qs : List Nat} (hnodup : qs.Nodup) (hqs : forall q, q ∈ qs -> q < n)
  (hn : n ≤ 63)

include hnodup hqs hn

theorem block_register_eq (k : Nat) :
    Checked.block qs (sorted qs) k = (do
      allocate 8 (twoPow qs.length)
      return blockPlaces qs k) := by
  have hword : wordBits = 64 := rfl
  have hlen : qs.length ≤ n := length_le_of_nodup hnodup hqs
  apply block_eq (by omega)
  intro q hq
  have hlt := hqs q hq
  omega

theorem checkedGather_blockIndex {i : Nat} (hk : k < twoPow (n - qs.length))
    (hi : i < twoPow qs.length) :
    Checked.gather qs (blockIndex qs (sorted qs) k i) = .ok i := by
  have hword : wordBits = 64 := rfl
  have hlen : qs.length ≤ n := length_le_of_nodup hnodup hqs
  have haddress : Checked.addressable qs = .ok () := by
    apply addressable_eq_ok_iff.mpr
    intro q hq
    have hlt := hqs q hq
    omega
  unfold Checked.gather
  rw [haddress, ok_bind, orCrash_of_true (decide_eq_true (by omega)), ok_bind,
    blockIndex_eq_joined hnodup hqs hn hk, gather_joined hnodup hqs hi]
  rfl

theorem blockPlaces_eq (hk : k < twoPow (n - qs.length)) :
    blockPlaces qs k = (List.range (twoPow qs.length)).map fun i => joined n qs i k := by
  apply List.map_congr_left
  intro i _
  exact blockIndex_eq_joined hnodup hqs hn hk i

theorem mem_blockPlaces_iff {x : Nat} (hk : k < twoPow (n - qs.length)) :
    x ∈ blockPlaces qs k ↔ x < twoPow n ∧ gather (unlisted n qs) x = k := by
  rw [blockPlaces_eq hnodup hqs hn hk, List.mem_map]
  constructor
  · rintro ⟨i, _, rfl⟩
    exact ⟨(joins_joined hnodup hqs i k).lt, gather_unlisted_joined hnodup hqs hk i⟩
  · rintro ⟨hx, rfl⟩
    exact ⟨gather qs x, List.mem_range.mpr (gather_lt qs x), joined_gather hnodup hqs hx⟩

theorem nodup_blockPlaces (hk : k < twoPow (n - qs.length)) : (blockPlaces qs k).Nodup := by
  rw [blockPlaces_eq hnodup hqs hn hk]
  apply List.Nodup.map_on _ List.nodup_range
  intro i hi j hj heq
  rw [← gather_joined hnodup hqs (List.mem_range.mp hi) k, heq,
    gather_joined hnodup hqs (List.mem_range.mp hj)]

theorem spells_of_mem_zipIdx (hk : k < twoPow (n - qs.length)) {p : Nat × Nat}
    (hp : p ∈ (blockPlaces qs k).zipIdx) :
    p.2 < twoPow qs.length ∧ p.1 = joined n qs p.2 k := by
  have hget := List.mem_zipIdx_iff_getElem?.mp hp
  have hlt : p.2 < twoPow qs.length := by
    rw [← length_blockPlaces qs k]
    exact (List.getElem?_eq_some_iff.mp hget).1
  rw [blockPlaces_eq hnodup hqs hn hk, List.getElem?_map, List.getElem?_range hlt] at hget
  exact ⟨hlt, (Option.some.inj hget).symm⟩

/-- Block after block, the enumeration comes to every index of the register once. -/
theorem perm_flatMap_blockPlaces :
    ((List.range (twoPow (n - qs.length))).flatMap (blockPlaces qs)).Perm
      (List.range (twoPow n)) := by
  have hmem : forall k, k ∈ List.range (twoPow (n - qs.length)) -> forall x,
      x ∈ blockPlaces qs k ↔ x < twoPow n ∧ gather (unlisted n qs) x = k :=
    fun k hk x => mem_blockPlaces_iff hnodup hqs hn (List.mem_range.mp hk)
  have hdistinct : ((List.range (twoPow (n - qs.length))).flatMap (blockPlaces qs)).Nodup := by
    refine List.nodup_flatMap.mpr ⟨fun k hk =>
      nodup_blockPlaces hnodup hqs hn (List.mem_range.mp hk),
      List.nodup_range.pairwise_of_forall_ne fun k hk k' hk' hne x hx hx' => hne ?_⟩
    rw [← ((hmem k hk x).mp hx).2, ((hmem k' hk' x).mp hx').2]
  apply (List.perm_ext_iff_of_nodup hdistinct List.nodup_range).mpr
  intro x
  rw [List.mem_flatMap, List.mem_range]
  constructor
  · rintro ⟨k, hk, hx⟩
    exact ((hmem k hk x).mp hx).1
  · intro hx
    have hblock := List.mem_range.mpr (gather_unlisted_lt hnodup hqs x)
    exact ⟨_, hblock, (hmem _ hblock x).mpr ⟨hx, rfl⟩⟩

end Register

end Basis
end MixedState
