import MixedState.Partition.Place
import MixedState.Proofs.Basis.Sides

/-!
# Chunks as frames

The entry that an index of a chunk stands for in the whole register has the
local bits of the index and the global bits of the chunk.  Extracting a chunk
reads the buffer of the register through this frame.
-/

namespace MixedState

open MixedState.Basis

structure Place.Fits (place : Place) : Prop where
  width_le : place.width ≤ place.register
  word : 2 * place.register ≤ wordBits
  index_lt : place.index < twoPow (2 * place.globalCount)

structure Place.Valid (place : Place) : Prop where
  width_lt : place.width < place.register
  word : 2 * place.register < wordBits
  index_lt : place.index < twoPow (2 * place.globalCount)

namespace Place

variable {place : Place}

def globalBits (place : Place) (onColumns : Bool) : Nat :=
  if onColumns then place.index / twoPow place.globalCount
  else place.index % twoPow place.globalCount

/-- The entry of the whole register that an entry of the chunk stands for. -/
def embed (place : Place) (x : Nat) : Nat :=
  chunkEntry place (place.globalBits false) (place.globalBits true) x

def move (place : Place) (p : Nat) : Nat :=
  if p < place.width then p else p - place.width + place.register

theorem Valid.fits (hplace : place.Valid) : place.Fits :=
  ⟨Nat.le_of_lt hplace.width_lt, Nat.le_of_lt hplace.word, hplace.index_lt⟩

theorem Fits.register_lt (hplace : place.Fits) : place.register < wordBits := by
  have hword := hplace.word
  unfold wordBits at hword ⊢
  omega

theorem Fits.globalCount_lt (hplace : place.Fits) : place.globalCount < wordBits :=
  Nat.lt_of_le_of_lt (Nat.sub_le _ _) hplace.register_lt

theorem Valid.word_width (hplace : place.Valid) : 2 * place.width < wordBits := by
  have hword := hplace.word
  have hwidth := hplace.width_lt
  omega

theorem Fits.width_add (hplace : place.Fits) :
    place.width + place.globalCount = place.register := by
  have hle := hplace.width_le
  unfold globalCount
  omega

theorem rowBits_eq_ok (hplace : place.Fits) :
    place.rowBits = .ok (place.globalBits false) := by
  unfold rowBits
  rw [checkedShift_of_lt hplace.globalCount_lt]
  rfl

theorem columnBits_eq_ok (hplace : place.Fits) :
    place.columnBits = .ok (place.globalBits true) := by
  unfold columnBits
  rw [checkedShift_of_lt hplace.globalCount_lt]
  rfl

theorem globalBits_lt (hplace : place.Fits) (onColumns : Bool) :
    place.globalBits onColumns < twoPow place.globalCount := by
  cases onColumns with
  | false =>
      exact Nat.mod_lt _ (twoPow_pos _)
  | true =>
      have hindex := hplace.index_lt
      rw [twoPow_two_mul] at hindex
      exact (Nat.div_lt_iff_lt_mul (twoPow_pos _)).mpr hindex

theorem cell_globalBits_lt (hplace : place.Fits) (onColumns : Bool) {r : Nat}
    (hr : r < twoPow place.width) :
    cell place.width r (place.globalBits onColumns) < twoPow place.register := by
  have hbits := globalBits_lt hplace onColumns
  rw [← hplace.width_add, lt_twoPow_iff]
  intro q hq
  rw [testBit_cell _ q hr, if_neg (by omega)]
  exact (lt_twoPow_iff _ _).mp hbits _ (by omega)

theorem or_shiftLeft_globalBits (hplace : place.Fits) (onColumns : Bool) {r : Nat}
    (hr : r < twoPow place.width) :
    r ||| (place.globalBits onColumns <<< place.width) % wordSize =
      cell place.width r (place.globalBits onColumns) := by
  have hregister : place.register < 64 := hplace.register_lt
  have hcell := cell_globalBits_lt hplace onColumns hr
  apply Nat.eq_of_testBit_eq
  intro q
  have hmod : forall y, (y % wordSize).testBit q = (decide (q < 64) && y.testBit q) := by
    intro y
    rw [wordSize_eq]
    exact Nat.testBit_mod_two_pow y 64 q
  by_cases hq : q < 64
  · rw [Nat.testBit_or, hmod, Nat.testBit_shiftLeft, testBit_cell _ q hr]
    by_cases hlow : q < place.width
    · have hnot : ¬place.width ≤ q := by omega
      simp [hlow, hnot]
    · have hfar : r.testBit q = false := (lt_twoPow_iff r _).mp hr q (by omega)
      have hle : place.width ≤ q := by omega
      simp [hlow, hfar, hle, hq]
  · have hfar : (cell place.width r (place.globalBits onColumns)).testBit q = false :=
      (lt_twoPow_iff _ _).mp hcell q (by omega)
    have hr' : r.testBit q = false := by
      have hwidth := hplace.width_le
      exact (lt_twoPow_iff r _).mp hr q (by omega)
    rw [Nat.testBit_or, hmod, hfar, hr']
    simp [hq]

theorem embed_cell (hplace : place.Fits) {r c : Nat} (hr : r < twoPow place.width)
    (hc : c < twoPow place.width) :
    place.embed (cell place.width r c) =
      cell place.register (cell place.width r (place.globalBits false))
        (cell place.width c (place.globalBits true)) := by
  unfold embed chunkEntry
  dsimp only
  rw [cell_mod c hr, cell_div c hr, or_shiftLeft_globalBits hplace false hr,
    or_shiftLeft_globalBits hplace true hc]
  rfl

theorem embed_lt (hplace : place.Fits) {x : Nat} (hx : x < twoPow (2 * place.width)) :
    place.embed x < twoPow (2 * place.register) := by
  rcases eq_cell hx with ⟨r, c, hr, hc, rfl⟩
  rw [embed_cell hplace hr hc]
  exact cell_lt (cell_globalBits_lt hplace false hr) (cell_globalBits_lt hplace true hc)

theorem testBit_embed (hplace : place.Valid) (onColumns : Bool) {x q : Nat}
    (hx : x < twoPow (2 * place.width)) (hq : q < place.register) :
    (place.embed x).testBit (q + side onColumns place.register) =
      if q < place.width then x.testBit (q + side onColumns place.width)
      else (place.globalBits onColumns).testBit (q - place.width) := by
  rcases eq_cell hx with ⟨r, c, hr, hc, rfl⟩
  have hrow := cell_globalBits_lt hplace.fits false hr
  rw [embed_cell hplace.fits hr hc]
  cases onColumns with
  | false =>
      change (cell _ _ _).testBit q = if q < place.width then (cell _ _ _).testBit q else _
      rw [testBit_cell_row _ hrow hq, testBit_cell _ q hr]
      split
      · rw [testBit_cell_row _ hr ‹_›]
      · rfl
  | true =>
      change (cell _ _ _).testBit (q + place.register) =
        if q < place.width then (cell _ _ _).testBit (q + place.width) else _
      rw [testBit_cell_column _ q hrow, testBit_cell _ q hc]
      split
      · rw [testBit_cell_column _ q hr]
      · rfl

theorem move_local {place : Place} {onColumns : Bool} {q : Nat} (hq : q < place.width) :
    place.move (q + side onColumns place.width) = q + side onColumns place.register := by
  cases onColumns with
  | false =>
      change place.move q = q
      unfold move
      rw [if_pos hq]
  | true =>
      change place.move (q + place.width) = q + place.register
      unfold move
      rw [if_neg (by omega), Nat.add_sub_cancel]

theorem map_move_sideBits {place : Place} {onColumns : Bool} {qs : List Nat}
    (hqs : forall q, q ∈ qs -> q < place.width) :
    (sideBits onColumns place.width qs).map place.move =
      sideBits onColumns place.register qs := by
  unfold sideBits
  rw [List.map_map]
  exact List.map_congr_left fun q hq => move_local (hqs q hq)

theorem map_move_bothSides {place : Place} {qs : List Nat}
    (hqs : forall q, q ∈ qs -> q < place.width) :
    (bothSides place.width qs).map place.move = bothSides place.register qs := by
  have hrows := (map_move_sideBits hqs : (sideBits false place.width qs).map place.move = _)
  rw [sideBits_false, sideBits_false] at hrows
  unfold bothSides
  rw [List.map_append, hrows, map_move_sideBits hqs]

theorem exists_side {place : Place} {p : Nat} (hp : p < 2 * place.width) :
    exists onColumns q, q < place.width ∧ p = q + side onColumns place.width := by
  by_cases hrow : p < place.width
  · exact ⟨false, p, hrow, rfl⟩
  · exact ⟨true, p - place.width, by omega, by change p = p - place.width + place.width; omega⟩

theorem frame (hplace : place.Valid) :
    Frame (2 * place.width) place.move place.embed where
  bit p x hp hx := by
    have hwidth := hplace.width_lt
    rcases exists_side hp with ⟨onColumns, q, hq, rfl⟩
    rw [move_local hq, testBit_embed hplace onColumns hx (by omega), if_pos hq]
  fixed s x y hs hx hy := by
    by_cases hfar : s < 2 * place.register
    · have hside : exists onColumns q,
          q < place.register ∧ s = q + side onColumns place.register := by
        by_cases hrow : s < place.register
        · exact ⟨false, s, hrow, rfl⟩
        · exact ⟨true, s - place.register, by omega,
            by change s = s - place.register + place.register; omega⟩
      rcases hside with ⟨onColumns, q, hq, rfl⟩
      have hglobal : ¬q < place.width := by
        intro hlocal
        have hle := side_le onColumns place.width
        exact hs (q + side onColumns place.width) (by omega) (move_local hlocal)
      rw [testBit_embed hplace onColumns hx hq, testBit_embed hplace onColumns hy hq,
        if_neg hglobal, if_neg hglobal]
    · have hzero : forall z, z < twoPow (2 * place.width) ->
          (place.embed z).testBit s = false := by
        intro z hz
        exact (lt_twoPow_iff _ _).mp (embed_lt hplace.fits hz) s (by omega)
      rw [hzero x hx, hzero y hy]
  injective p q hp hq h := by
    have hwidth := hplace.width_lt
    unfold move at h
    split at h <;> split at h <;> omega

end Place

/-!
## Extracting a chunk
-/

/-- A buffer that holds one chunk of the register with another buffer. -/
structure IsChunk (place : Place) (full part : Buffer ℝ) : Prop where
  full_size : full.size = twoPow (2 * place.register)
  part_size : part.size = twoPow (2 * place.width)
  entry_eq : forall x, x < twoPow (2 * place.width) ->
    part.entry x = full.entry (place.embed x)

theorem IsChunk.part_unique {place : Place} {full part part' : Buffer ℝ}
    (h : IsChunk place full part) (h' : IsChunk place full part') : part = part' := by
  apply Buffer.ext_entry
  · rw [h.part_size, h'.part_size]
  · intro x hx
    rw [h.part_size] at hx
    rw [h.entry_eq x hx, h'.entry_eq x hx]

theorem extractChunk_of_fits {R : Type} [Scalar R] {place : Place} {full : Buffer R}
    (hplace : place.Fits) (hwidth : 2 * place.width < wordBits)
    (hfull : full.size = twoPow (2 * place.register)) :
    extractChunk full place = .ok (Buffer.tabulate (twoPow (2 * place.width)) fun x =>
      full.entry (place.embed x)) := by
  have hcount : twoPow place.width * twoPow place.width < wordSize := by
    rw [← twoPow_two_mul, wordSize_eq]
    exact twoPow_lt_twoPow (by unfold wordBits at hwidth; omega)
  have hlast : twoPow (2 * place.width) - 1 < twoPow (2 * place.width) := by
    have hpos := twoPow_pos (2 * place.width)
    omega
  have hinside : place.embed (twoPow (2 * place.width) - 1) < full.size := by
    rw [hfull]
    exact Place.embed_lt hplace hlast
  unfold extractChunk
  rw [checkedShift_of_lt (by omega), ok_bind, checkedShift_of_lt hplace.register_lt, ok_bind,
    Place.rowBits_eq_ok hplace, ok_bind, Place.columnBits_eq_ok hplace, ok_bind,
    checkedMul_of_lt hcount, ok_bind, ← twoPow_two_mul]
  change (orCrash (place.embed (twoPow (2 * place.width) - 1) < full.size) >>= fun _ => _) = _
  rw [orCrash_of_true (decide_eq_true hinside)]
  rfl

theorem extractChunk_eq_ok {place : Place} {full : Buffer ℝ} (hplace : place.Valid)
    (hfull : full.size = twoPow (2 * place.register)) :
    extractChunk full place = .ok (Buffer.tabulate (twoPow (2 * place.width)) fun x =>
      full.entry (place.embed x)) :=
  extractChunk_of_fits hplace.fits hplace.word_width hfull

theorem extractChunk_eq_ok_iff {place : Place} {full part : Buffer ℝ}
    (hplace : place.Valid) (hfull : full.size = twoPow (2 * place.register)) :
    extractChunk full place = .ok part ↔ IsChunk place full part := by
  rw [extractChunk_eq_ok hplace hfull]
  constructor
  · intro h
    cases h
    exact
      { full_size := hfull
        part_size := Buffer.size_tabulate _ _
        entry_eq := fun x hx => Buffer.entry_tabulate_of_lt _ hx }
  · intro h
    congr 1
    apply Buffer.ext_entry
    · rw [Buffer.size_tabulate, h.part_size]
    · intro x hx
      rw [Buffer.size_tabulate] at hx
      rw [Buffer.entry_tabulate_of_lt _ hx, h.entry_eq x hx]

/-- New buffers that give their entries from old ones by formulas hold a chunk again
when the formulas agree there. -/
theorem IsChunk.tabulate {place : Place} {full part : Buffer ℝ}
    (hplace : place.Valid) (h : IsChunk place full part) {f g : Nat -> Amplitude ℝ}
    (hfg : forall x, x < twoPow (2 * place.width) -> g x = f (place.embed x)) :
    IsChunk place (Buffer.tabulate full.size f) (Buffer.tabulate part.size g) where
  full_size := by rw [Buffer.size_tabulate, h.full_size]
  part_size := by rw [Buffer.size_tabulate, h.part_size]
  entry_eq x hx := by
    have hembed := Place.embed_lt hplace.fits hx
    rw [Buffer.entry_tabulate_of_lt g (by rw [h.part_size]; exact hx),
      Buffer.entry_tabulate_of_lt f (by rw [h.full_size]; exact hembed), hfg x hx]

end MixedState
