import MixedState.Proofs.Machine.Operators
import MixedState.Proofs.Partition.Diagonal

/-!
# A machine with a chunk follows the whole register

A machine that holds one chunk is related to a machine that holds the register.
Each operator that succeeds on the chunk succeeds on the register, and the two
stay related.
-/

namespace MixedState

namespace Machine

/-- The first machine holds the chunk at a place of the register that the second one
holds. -/
structure IsChunkOf (place : Place) (chunk whole : Machine ℝ) : Prop where
  place_eq : chunk.place = place
  valid : chunk.place.Valid
  width : whole.width = chunk.width
  qubits : whole.store.qubits = chunk.width
  classical : whole.classical = chunk.classical
  data : IsChunk chunk.place whole.store.data chunk.store.data

namespace IsChunkOf

variable {place : Place} {whole chunk chunk' : Machine ℝ} {qs : List Nat}

theorem isSplit_whole (h : IsChunkOf place chunk whole) : whole.isSplit = false := by
  have hwidth := h.width
  have hqubits := h.qubits
  exact decide_eq_false (by change ¬whole.store.qubits < whole.width; omega)

theorem isSplit_chunk (h : IsChunkOf place chunk whole) : chunk.isSplit = true :=
  decide_eq_true h.valid.width_lt

theorem word (h : IsChunkOf place chunk whole) : 2 * chunk.width < wordBits :=
  h.valid.word

theorem small (h : IsChunkOf place chunk whole) (hsmall : 4 * place.register < wordBits) :
    4 * chunk.place.register < wordBits := by
  rw [h.place_eq]
  exact hsmall

theorem reaches_whole (h : IsChunkOf place chunk whole) (qs : List Nat) : whole.Reaches qs :=
  Or.inl h.isSplit_whole

theorem lt_of_reaches (h : IsChunkOf place chunk whole) (hreach : chunk.Reaches qs) :
    forall q, q ∈ qs -> q < chunk.place.width := by
  rcases hreach with hwhole | hlocal
  · rw [h.isSplit_chunk] at hwhole
    cases hwhole
  · exact hlocal

theorem qubits_whole_lt (h : IsChunkOf place chunk whole) : whole.store.qubits < wordBits := by
  have hword := h.word
  have hqubits := h.qubits
  omega

theorem qubits_chunk_lt (h : IsChunkOf place chunk whole) : chunk.store.qubits < wordBits := by
  have hword : 2 * chunk.store.qubits < wordBits := h.valid.word_width
  omega

theorem lt_wordBits (h : IsChunkOf place chunk whole) (hqs : forall q, q ∈ qs -> q < chunk.width) :
    forall q, q ∈ qs -> q < wordBits := by
  intro q hq
  have hlt := hqs q hq
  have hword := h.word
  omega

theorem length_lt_half (h : IsChunkOf place chunk whole) (hnodup : qs.Nodup)
    (hqs : forall q, q ∈ qs -> q < chunk.width) : qs.length < 32 := by
  have hlen := Basis.length_le_of_nodup hnodup hqs
  have hword := h.word
  have hbits : wordBits = 64 := rfl
  omega

theorem length_lt_wordBits (h : IsChunkOf place chunk whole) (hnodup : qs.Nodup)
    (hqs : forall q, q ∈ qs -> q < chunk.width) : qs.length < wordBits :=
  Nat.lt_trans (h.length_lt_half hnodup hqs) (by decide)

theorem withData (h : IsChunkOf place chunk whole) {full' part' : Buffer ℝ}
    (hdata : IsChunk chunk.place full' part') :
    IsChunkOf place (chunk.withData part') (whole.withData full') where
  place_eq := h.place_eq
  valid := h.valid
  width := h.width
  qubits := h.qubits
  classical := h.classical
  data := hdata

theorem exists_onData (h : IsChunkOf place chunk whole) {f g : Buffer ℝ -> Outcome (Buffer ℝ)}
    (hkernels : exists full' part', f whole.store.data = .ok full' ∧
      g chunk.store.data = .ok part' ∧ IsChunk chunk.place full' part') :
    exists chunk' whole', chunk.onData g = .ok chunk' ∧ whole.onData f = .ok whole' ∧
      IsChunkOf place chunk' whole' := by
  rcases hkernels with ⟨full', part', hfull, hpart, hdata⟩
  exact ⟨chunk.withData part', whole.withData full', onData_of_eq_ok hpart,
    onData_of_eq_ok hfull, h.withData hdata⟩

theorem onData (h : IsChunkOf place chunk whole) {f g : Buffer ℝ -> Outcome (Buffer ℝ)}
    (hkernels : exists full' part', f whole.store.data = .ok full' ∧
      g chunk.store.data = .ok part' ∧ IsChunk chunk.place full' part')
    (hchunk : chunk.onData g = .ok chunk') :
    exists whole', whole.onData f = .ok whole' ∧ IsChunkOf place chunk' whole' := by
  rcases h.exists_onData hkernels with ⟨chunk1, whole', hchunk1, hwhole, hrel⟩
  cases hchunk.symm.trans hchunk1
  exact ⟨whole', hwhole, hrel⟩

/-!
## Diagonals
-/

theorem exists_applyDiagonal (h : IsChunkOf place chunk whole) (hnodup : qs.Nodup)
    (hqs : forall q, q ∈ qs -> q < chunk.width) {entries : Buffer ℝ}
    (hsize : entries.size = twoPow qs.length) :
    exists chunk' whole', chunk.applyDiagonal qs entries = .ok chunk' ∧
      whole.applyDiagonal qs entries = .ok whole' ∧ IsChunkOf place chunk' whole' := by
  have hword := h.lt_wordBits hqs
  have hlen := h.length_lt_wordBits hnodup hqs
  rw [applyDiagonal_of_reaches (h.reaches_whole qs) h.qubits_whole_lt hword hlen hsize,
    h.qubits]
  by_cases hreach : chunk.Reaches qs
  · have hlocal := h.lt_of_reaches hreach
    rw [applyDiagonal_of_reaches hreach h.qubits_chunk_lt hword hlen hsize]
    exact h.exists_onData (h.data.diagonalLocal h.valid hlocal
      (Basis.length_le_of_nodup hnodup hlocal) hsize)
  · have hdirect : ¬(!chunk.isSplit || qs.all chunk.place.isLocal) = true := by
      rw [Bool.or_eq_true, not_or]
      refine ⟨?_, fun hall => hreach (Or.inr (all_isLocal_iff.mp hall))⟩
      rw [h.isSplit_chunk]
      decide
    have hexists : forall onColumns, exists inside reduced, restrictDiagonal
        (chunk.place.globalBits onColumns) chunk.store.qubits qs entries = .ok (inside, reduced) :=
      fun onColumns => exists_restrictDiagonal (fun q hq => Nat.lt_add_left _ (hword q hq))
        (Nat.le_of_lt hlen) _ entries
    -- Which qubits are inside does not depend on the global bits, so both sides list the same.
    rcases hexists false with ⟨inside, rows, hrows⟩
    rcases hexists true with ⟨inside', columns, hcolumns⟩
    obtain rfl := inside_eq_of_restrictDiagonal hsize hrows hcolumns
    have hinside : forall q, q ∈ inside -> q < wordBits := by
      intro q hq
      rcases mem_of_restrictDiagonal hsize hrows hq with hmem | rfl
      · exact hword q hmem
      · decide
    have happly : chunk.applyDiagonal qs entries = chunk.onData
        (Kernel.diagonal (bothSides chunk.store.qubits inside) (columns.conj.tensor rows)) := by
      unfold Machine.applyDiagonal
      rw [checkedShift_of_lt hlen, ok_bind, if_neg (not_not.mpr hsize), if_neg hdirect,
        Place.rowBits_eq_ok h.valid.fits, ok_bind]
      dsimp only
      rw [hrows, ok_bind]
      dsimp only
      rw [Place.columnBits_eq_ok h.valid.fits, ok_bind, hcolumns, ok_bind]
      dsimp only
      rw [Store.bothBits_eq_ok h.qubits_chunk_lt hinside, ok_bind]
      rfl
    rw [happly]
    exact h.exists_onData (h.data.diagonal h.valid hqs
      (Basis.length_le_of_nodup hnodup hqs) hsize hrows hcolumns)

theorem applyDiagonal (h : IsChunkOf place chunk whole) (hnodup : qs.Nodup)
    (hqs : forall q, q ∈ qs -> q < chunk.width) {entries : Buffer ℝ}
    (hchunk : chunk.applyDiagonal qs entries = .ok chunk') :
    exists whole', whole.applyDiagonal qs entries = .ok whole' ∧ IsChunkOf place chunk' whole' := by
  rcases h.exists_applyDiagonal hnodup hqs (size_of_applyDiagonal_eq_ok hchunk).2 with
    ⟨chunk1, whole', hchunk1, hwhole, hrel⟩
  cases hchunk.symm.trans hchunk1
  exact ⟨whole', hwhole, hrel⟩

/-!
## Matrices and channels
-/

theorem exists_applyMatrix (h : IsChunkOf place chunk whole) (hnodup : qs.Nodup)
    (hqs : forall q, q ∈ qs -> q < chunk.width)
    (hlocal : forall q, q ∈ qs -> q < chunk.place.width) {u : Mat ℝ} (hmany : u.rows ≠ 1)
    (hrows : u.rows = twoPow qs.length) (hcols : u.cols = twoPow qs.length) :
    exists chunk' whole', chunk.applyMatrix qs u = .ok chunk' ∧
      whole.applyMatrix qs u = .ok whole' ∧ IsChunkOf place chunk' whole' := by
  have hword := h.lt_wordBits hqs
  have hlen := h.length_lt_wordBits hnodup hqs
  rw [applyMatrix_of_reaches hmany (Or.inr hlocal) h.qubits_chunk_lt hword hlen hrows hcols,
    applyMatrix_of_reaches hmany (h.reaches_whole qs) h.qubits_whole_lt hword hlen hrows hcols,
    h.qubits]
  exact h.exists_onData (h.data.unitary h.valid hnodup hlocal
    (by rw [Mat.size_columns, hrows, hcols]))

theorem applyMatrix (h : IsChunkOf place chunk whole) (hnodup : qs.Nodup)
    (hqs : forall q, q ∈ qs -> q < chunk.width) {u : Mat ℝ}
    (hchunk : chunk.applyMatrix qs u = .ok chunk') :
    exists whole', whole.applyMatrix qs u = .ok whole' ∧ IsChunkOf place chunk' whole' := by
  have hword := h.lt_wordBits hqs
  by_cases hrow : u.rows = 1
  · have hdiagonal : forall m : Machine ℝ, qs.length < wordBits ->
        m.applyMatrix qs u = m.applyDiagonal qs u.entries := by
      intro m hlen
      unfold Machine.applyMatrix
      rw [checkedShift_of_lt hlen, ok_bind, if_pos hrow]
    rw [hdiagonal _ (h.length_lt_wordBits hnodup hqs)] at hchunk ⊢
    exact h.applyDiagonal hnodup hqs hchunk
  · rcases (applyMatrix_eq_ok_iff hrow h.qubits_chunk_lt hword).mp hchunk with
      ⟨⟨_, hr, hc, hreach⟩, _⟩
    rcases h.exists_applyMatrix hnodup hqs (h.lt_of_reaches hreach) hrow hr hc with
      ⟨chunk1, whole', hchunk1, hwhole, hrel⟩
    cases hchunk.symm.trans hchunk1
    exact ⟨whole', hwhole, hrel⟩

theorem onBothSides (h : IsChunkOf place chunk whole)
    (hsmall : 4 * place.register < wordBits) (hnodup : qs.Nodup)
    (hlocal : forall q, q ∈ qs -> q < chunk.place.width) {columns : Buffer ℝ}
    (hcolumns : twoPow (2 * qs.length) * twoPow (2 * qs.length) ≤ columns.size)
    (hchunk : chunk.onData (Kernel.dense (bothSides chunk.store.qubits qs) columns)
      = .ok chunk') :
    exists whole', whole.onData (Kernel.dense (bothSides whole.store.qubits qs) columns)
        = .ok whole' ∧ IsChunkOf place chunk' whole' := by
  have hfew : (bothSides chunk.place.width qs).length < 59 := by
    have hlen := Basis.length_le_of_nodup hnodup hlocal
    have hwidth := h.valid.width_lt
    have hregister := h.small hsmall
    rw [length_bothSides]
    unfold wordBits at hregister
    omega
  have hdense := h.data.dense h.valid hfew (nodup_bothSides hnodup hlocal)
    (lt_of_mem_bothSides hlocal) (by rw [length_bothSides]; exact hcolumns)
  rw [Place.map_move_bothSides hlocal] at hdense
  rw [h.qubits]
  exact h.onData hdense hchunk

theorem applySuperop (h : IsChunkOf place chunk whole)
    (hsmall : 4 * place.register < wordBits) (hnodup : qs.Nodup)
    (hqs : forall q, q ∈ qs -> q < chunk.width) {map : Mat ℝ}
    (hchunk : chunk.applySuperop qs map = .ok chunk') :
    exists whole', whole.applySuperop qs map = .ok whole' ∧ IsChunkOf place chunk' whole' := by
  have hword := h.lt_wordBits hqs
  obtain ⟨⟨hlen, hr, hc, hreach⟩, hkernel⟩ :=
    (applySuperop_eq_ok_iff h.qubits_chunk_lt hword).mp hchunk
  obtain ⟨whole', hwhole, hrel⟩ := h.onBothSides hsmall hnodup (h.lt_of_reaches hreach)
    (by rw [Mat.size_columns, hr, hc]) hkernel
  refine ⟨whole', ?_, hrel⟩
  rw [applySuperop_eq_ok_iff h.qubits_whole_lt hword]
  exact ⟨⟨hlen, hr, hc, h.reaches_whole qs⟩, hwhole⟩

theorem applyKraus (h : IsChunkOf place chunk whole)
    (hsmall : 4 * place.register < wordBits) (hnodup : qs.Nodup)
    (hqs : forall q, q ∈ qs -> q < chunk.width) {operators : List (Mat ℝ)}
    (hchunk : chunk.applyKraus qs operators = .ok chunk') :
    exists whole', whole.applyKraus qs operators = .ok whole' ∧ IsChunkOf place chunk' whole' := by
  rcases applyKraus_eq_ok_iff.mp hchunk with ⟨hshapes, map, hmap, hsuperop⟩
  rcases h.applySuperop hsmall hnodup hqs hsuperop with ⟨whole', hwhole, hrel⟩
  exact ⟨whole', applyKraus_eq_ok_iff.mpr ⟨hshapes, map, hmap, hwhole⟩, hrel⟩

theorem applyReset (h : IsChunkOf place chunk whole)
    (hsmall : 4 * place.register < wordBits) (hnodup : qs.Nodup)
    (hqs : forall q, q ∈ qs -> q < chunk.width) (hchunk : chunk.applyReset qs = .ok chunk') :
    exists whole', whole.applyReset qs = .ok whole' ∧ IsChunkOf place chunk' whole' := by
  have hword := h.lt_wordBits hqs
  obtain ⟨hreach, columns, hmap, hkernel⟩ :=
    (applyReset_eq_ok_iff h.qubits_chunk_lt hword).mp hchunk
  have hcolumns : twoPow (2 * qs.length) * twoPow (2 * qs.length) ≤ columns.size := by
    rw [(resetMap_eq_ok_iff.mp hmap).2, Buffer.size_tabulate, twoPow_two_mul]
  obtain ⟨whole', hwhole, hrel⟩ :=
    h.onBothSides hsmall hnodup (h.lt_of_reaches hreach) hcolumns hkernel
  refine ⟨whole', ?_, hrel⟩
  rw [applyReset_eq_ok_iff h.qubits_whole_lt hword]
  exact ⟨h.reaches_whole qs, columns, hmap, hwhole⟩

end IsChunkOf

end Machine

end MixedState
