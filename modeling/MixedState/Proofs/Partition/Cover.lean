import Mathlib.Data.Set.Function
import MixedState.Proofs.Machine.Start
import MixedState.Proofs.Partition.Chunk

/-!
# The chunks of a register

Every entry of a register is one entry of one chunk.  A buffer is therefore put together again
from its chunks, and each chunk of the initial state is initialised by itself.
-/

namespace MixedState

open MixedState.Basis

variable {N L : Nat}

/-!
## Entries of a register and entries of its chunks
-/

namespace Place

/-- The chunk of `L` qubits that has entry `x` of a register of `N`: its number is the global
bits of the row and then those of the column. -/
def holder (N L x : Nat) : Place where
  register := N
  width := L
  index := cell (N - L) (x % twoPow N / twoPow L) (x / twoPow N / twoPow L)

/-- Where its chunk has entry `x` of a register: the local bits of the row and then those of
the column. -/
def inside (N L x : Nat) : Nat :=
  cell L (x % twoPow N % twoPow L) (x / twoPow N % twoPow L)

theorem cell_globalBits (place : Place) :
    cell place.globalCount (place.globalBits false) (place.globalBits true) = place.index :=
  cell_mod_div place.globalCount place.index

theorem globalBits_holder {x : Nat} (hL : L ≤ N) :
    (holder N L x).globalBits false = x % twoPow N / twoPow L ∧
      (holder N L x).globalBits true = x / twoPow N / twoPow L := by
  have hrow : x % twoPow N / twoPow L < twoPow (N - L) := by
    rw [Nat.div_lt_iff_lt_mul (twoPow_pos L), ← twoPow_add, Nat.sub_add_cancel hL]
    exact Nat.mod_lt x (twoPow_pos N)
  exact ⟨cell_mod _ hrow, cell_div _ hrow⟩

theorem fits_holder (hL : L ≤ N) (hN : 2 * N ≤ wordBits) {x : Nat} (hx : x < twoPow (2 * N)) :
    (holder N L x).Fits where
  width_le := hL
  word := hN
  index_lt := by
    have hside : forall y, y < twoPow N -> y / twoPow L < twoPow (N - L) := by
      intro y hy
      rw [Nat.div_lt_iff_lt_mul (twoPow_pos L), ← twoPow_add, Nat.sub_add_cancel hL]
      exact hy
    rw [twoPow_two_mul] at hx
    exact cell_lt (hside _ (Nat.mod_lt x (twoPow_pos N)))
      (hside _ ((Nat.div_lt_iff_lt_mul (twoPow_pos N)).mpr hx))

theorem inside_lt (x : Nat) : inside N L x < twoPow (2 * L) :=
  cell_lt (Nat.mod_lt _ (twoPow_pos L)) (Nat.mod_lt _ (twoPow_pos L))

theorem embed_inside (hL : L ≤ N) (hN : 2 * N ≤ wordBits) {x : Nat} (hx : x < twoPow (2 * N)) :
    (holder N L x).embed (inside N L x) = x := by
  rcases globalBits_holder (x := x) hL with ⟨hrow, hcolumn⟩
  have hembed : (holder N L x).embed (inside N L x) = cell N
      (cell L (x % twoPow N % twoPow L) ((holder N L x).globalBits false))
      (cell L (x / twoPow N % twoPow L) ((holder N L x).globalBits true)) :=
    embed_cell (fits_holder hL hN hx) (Nat.mod_lt _ (twoPow_pos L)) (Nat.mod_lt _ (twoPow_pos L))
  rw [hembed, hrow, hcolumn, cell_mod_div, cell_mod_div, cell_mod_div]

theorem holder_embed {place : Place} (hplace : place.Fits) {j : Nat}
    (hj : j < twoPow (2 * place.width)) :
    holder place.register place.width (place.embed j) = place ∧
      inside place.register place.width (place.embed j) = j := by
  rcases eq_cell hj with ⟨r, c, hr, hc, rfl⟩
  have hrow := cell_globalBits_lt hplace false hr
  rw [embed_cell hplace hr hc]
  unfold holder inside
  rw [cell_mod _ hrow, cell_div _ hrow, cell_div _ hr, cell_div _ hc, cell_mod _ hr, cell_mod _ hc]
  refine ⟨?_, rfl⟩
  change Place.mk place.register place.width
    (cell place.globalCount (place.globalBits false) (place.globalBits true)) = place
  rw [cell_globalBits]

theorem bijOn_embed (hL : L ≤ N) (hN : 2 * N ≤ wordBits) :
    Set.BijOn (fun entry : Nat × Nat => (Place.mk N L entry.1).embed entry.2)
      {entry | entry.1 < twoPow (2 * (N - L)) ∧ entry.2 < twoPow (2 * L)}
      {x | x < twoPow (2 * N)} := by
  have hfits : forall k, k < twoPow (2 * (N - L)) -> (Place.mk N L k).Fits :=
    fun k hk => ⟨hL, hN, hk⟩
  let inverse := fun x => ((holder N L x).index, inside N L x)
  have hinverse : Set.InvOn inverse (fun entry : Nat × Nat => (Place.mk N L entry.1).embed entry.2)
      {entry | entry.1 < twoPow (2 * (N - L)) ∧ entry.2 < twoPow (2 * L)}
      {x | x < twoPow (2 * N)} := by
    constructor
    · rintro ⟨k, j⟩ ⟨hk, hj⟩
      rcases holder_embed (hfits k hk) hj with ⟨hholder, hinside⟩
      exact Prod.ext (congrArg Place.index hholder) hinside
    · intro x hx
      exact embed_inside hL hN hx
  apply hinverse.bijOn
  · rintro ⟨k, j⟩ ⟨hk, hj⟩
    exact embed_lt (hfits k hk) hj
  · intro x hx
    exact ⟨(fits_holder hL hN hx).index_lt, inside_lt x⟩

end Place

/-!
## Buffers of a register and of its chunks
-/

variable {R : Type} [Scalar R]

def partOf (full : Buffer R) (place : Place) : Buffer R :=
  Buffer.tabulate (twoPow (2 * place.width)) fun j => full.entry (place.embed j)

theorem entry_partOf (full : Buffer R) (place : Place) {j : Nat}
    (hj : j < twoPow (2 * place.width)) :
    (partOf full place).entry j = full.entry (place.embed j) :=
  Buffer.entry_tabulate_of_lt _ hj

def assemble (N L : Nat) (part : Nat -> Buffer R) : Buffer R :=
  Buffer.tabulate (twoPow (2 * N)) fun x =>
    (part (Place.holder N L x).index).entry (Place.inside N L x)

theorem assemble_partOf (hL : L ≤ N) (hN : 2 * N ≤ wordBits) {full : Buffer R}
    (hfull : full.size = twoPow (2 * N)) :
    assemble N L (fun k => partOf full ⟨N, L, k⟩) = full := by
  unfold assemble
  rw [← hfull, ← Buffer.tabulate_entry full, Buffer.size_tabulate]
  apply Buffer.tabulate_congr
  intro x hx
  rw [hfull] at hx
  rw [Buffer.tabulate_entry, entry_partOf _ _ (Place.inside_lt x)]
  exact congrArg full.entry (Place.embed_inside hL hN hx)

theorem Place.embed_eq_zero_iff {place : Place} (hplace : place.Fits) {j : Nat}
    (hj : j < twoPow (2 * place.width)) : place.embed j = 0 ↔ j = 0 ∧ place.index = 0 := by
  rcases eq_cell hj with ⟨r, c, hr, hc, rfl⟩
  rw [embed_cell hplace hr hc, ← place.cell_globalBits, cell_eq_zero_iff, cell_eq_zero_iff,
    cell_eq_zero_iff, cell_eq_zero_iff, cell_eq_zero_iff]
  tauto

theorem lt_wordBits_of_room {n : Nat} (hroom : twoPow n * 16 < bufferLimit) : n < wordBits :=
  Nat.lt_trans (twoPow_mul_sixteen_lt_iff.mp hroom) (by decide)

theorem Store.reset_eq_ok {s : Store R} (hroom : twoPow (2 * s.qubits) * 16 < bufferLimit) :
    s.reset = .ok (s.started s.qubits (twoPow (2 * s.qubits))) := by
  unfold reset
  rw [entryCount_eq_ok_iff.mpr ⟨lt_wordBits_of_room hroom, hroom, rfl⟩]
  rfl

theorem extractChunk_reset {place : Place} (hplace : place.Fits)
    (hwidth : 2 * place.width < wordBits) (old old' : Buffer R) :
    extractChunk ((⟨place.register, 0, old⟩ : Store R).started place.register
        (twoPow (2 * place.register))).data place =
      .ok ((⟨place.width, place.index, old'⟩ : Store R).started place.width
        (twoPow (2 * place.width))).data := by
  unfold Store.started
  dsimp only
  rw [extractChunk_of_fits hplace hwidth (Buffer.size_tabulate _ _)]
  refine congrArg Except.ok (Buffer.tabulate_congr fun j hj => ?_)
  rw [Buffer.entry_tabulate_of_lt _ (Place.embed_lt hplace hj)]
  simp only [Place.embed_eq_zero_iff hplace hj, and_true]

/-- The chunks of a register part its entries among them, each entry in one chunk at one place,
where it has its row and its column but for the bits that the number of the chunk stands for.
So a buffer is put together again from its chunks, and a register begins with its chunks at
their own beginning.  The bounds on shifts and on bytes hold of each buffer that can be held. -/
theorem chunks_partition (hL : L ≤ N) (hN : 2 * N ≤ wordBits) :
    (2 * (N - L) < wordBits -> forall k,
      (Place.mk N L k).chunkCount = .ok (twoPow (2 * (N - L)))) ∧
    Set.BijOn (fun entry : Nat × Nat => (Place.mk N L entry.1).embed entry.2)
      {entry | entry.1 < twoPow (2 * (N - L)) ∧ entry.2 < twoPow (2 * L)}
      {x | x < twoPow (2 * N)} ∧
    (forall full : Buffer R, full.size = twoPow (2 * N) -> 2 * L < wordBits ->
      exists part : Nat -> Buffer R, full = assemble N L part ∧
        forall k, k < twoPow (2 * (N - L)) ->
          extractChunk full ⟨N, L, k⟩ = .ok (part k) ∧ (part k).size = twoPow (2 * L) ∧
          (forall j, j < twoPow (2 * L) ->
            (part k).entry j = full.entry ((Place.mk N L k).embed j)) ∧
          exists rows columns, (Place.mk N L k).rowBits = .ok rows ∧
            (Place.mk N L k).columnBits = .ok columns ∧
            forall r c, r < twoPow L -> c < twoPow L -> (part k).entry (cell L r c) =
              full.entry (cell N (r + rows * twoPow L) (c + columns * twoPow L))) ∧
    (twoPow (2 * N) * 16 < bufferLimit -> forall old : Buffer R,
      exists whole, Store.reset ⟨N, 0, old⟩ = .ok whole ∧
        forall k, k < twoPow (2 * (N - L)) -> forall old' : Buffer R,
          exists chunk, Store.reset ⟨L, k, old'⟩ = .ok chunk ∧
            extractChunk whole.data ⟨N, L, k⟩ = .ok chunk.data) := by
  have hfits : forall k, k < twoPow (2 * (N - L)) -> (Place.mk N L k).Fits :=
    fun k hk => ⟨hL, hN, hk⟩
  refine ⟨fun hcount k => checkedShift_of_lt hcount, Place.bijOn_embed hL hN, ?_, ?_⟩
  · intro full hfull hwidth
    refine ⟨fun k => partOf full ⟨N, L, k⟩, (assemble_partOf hL hN hfull).symm, ?_⟩
    intro k hk
    refine ⟨extractChunk_of_fits (hfits k hk) hwidth hfull, Buffer.size_tabulate _ _,
      fun j hj => entry_partOf full ⟨N, L, k⟩ hj,
      _, _, Place.rowBits_eq_ok (hfits k hk), Place.columnBits_eq_ok (hfits k hk), ?_⟩
    intro r c hr hc
    exact (entry_partOf full ⟨N, L, k⟩ (cell_lt hr hc)).trans
      (congrArg full.entry (Place.embed_cell (hfits k hk) hr hc))
  · intro hroom old
    have hle : twoPow (2 * L) ≤ twoPow (2 * N) := twoPow_le_twoPow (by omega)
    have hroom' : twoPow (2 * L) * 16 < bufferLimit := by omega
    refine ⟨_, Store.reset_eq_ok hroom, ?_⟩
    intro k hk old'
    exact ⟨_, Store.reset_eq_ok hroom',
      extractChunk_reset (hfits k hk) (lt_wordBits_of_room hroom') old old'⟩

theorem chunks_partition_last :
    exists part : Nat -> Buffer Float,
      (Buffer.tabulate 16 fun i => Amplitude.ofReal (Float.ofNat i)) = assemble 2 1 part ∧
        (part 3).entry (cell 1 0 1) = Amplitude.ofReal (Float.ofNat 14) := by
  rcases chunks_partition (R := Float) (by decide : 1 ≤ 2) (by decide) with ⟨_, _, hfull, _⟩
  rcases hfull (Buffer.tabulate 16 fun i => Amplitude.ofReal (Float.ofNat i))
    (Buffer.size_tabulate _ _) (by decide) with ⟨part, hassemble, hpart⟩
  rcases hpart 3 (by decide) with ⟨_, _, _, rows, columns, hrows, hcolumns, hentry⟩
  obtain rfl : 1 = rows := Except.ok.inj hrows
  obtain rfl : 1 = columns := Except.ok.inj hcolumns
  refine ⟨part, hassemble, (hentry 0 1 (by decide) (by decide)).trans ?_⟩
  exact Buffer.entry_tabulate_of_lt _ (by decide : 14 < 16)

end MixedState
