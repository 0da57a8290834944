import MixedState.Proofs.Partition.Kernels

/-!
# Restricted diagonals

Of a diagonal, the entries that fit the global bits of a chunk stand in the order
of the numbers that the local qubits spell.  A diagonal of the whole register is
therefore the restricted one on the chunk.
-/

namespace MixedState

open MixedState.Basis

/-- The number that has the bits of `j` at the local positions in turn and the global
bits at the others. -/
def completed (bits width : Nat) : List Nat -> Nat -> Nat
  | [], _ => 0
  | q :: rest, j =>
      if q < width then (j.testBit 0).toNat + 2 * completed bits width rest (j / 2)
      else (bits.testBit (q - width)).toNat + 2 * completed bits width rest j

def fitsGlobal (bits width : Nat) : List Nat -> Nat -> Bool
  | [], _ => true
  | q :: rest, i =>
      (decide (q < width) || i.testBit 0 == bits.testBit (q - width))
        && fitsGlobal bits width rest (i / 2)

theorem and_bit (i m : Nat) (b : Bool) :
    i &&& (b.toNat + 2 * m) = (i.testBit 0 && b).toNat + 2 * (i / 2 &&& m) := by
  apply Nat.eq_of_testBit_eq
  intro k
  cases k with
  | zero =>
      rw [Nat.testBit_and, testBit_zero_bit, testBit_zero_bit]
  | succ k =>
      rw [Nat.testBit_and, Nat.testBit_succ, Nat.testBit_succ, Nat.testBit_succ, bit_div_two,
        bit_div_two, Nat.testBit_and]

theorem and_globalMask_beq (bits width : Nat) (qs : List Nat) (i : Nat) :
    (i &&& globalMask width qs == globalChoice bits width qs) = fitsGlobal bits width qs i := by
  induction qs generalizing i with
  | nil =>
      simp [globalMask, globalChoice, fitsGlobal]
  | cons q rest ih =>
      unfold globalMask globalChoice fitsGlobal
      rw [← ih, and_bit, Bool.eq_iff_iff, beq_iff_eq, bit_eq_bit_iff, Bool.and_eq_true,
        beq_iff_eq]
      by_cases hq : q < width
      · simp [hq]
      · simp [hq]

theorem flatMap_ite {α β : Type} (xs : List α) (p : α -> Bool) (f : α -> List β) :
    (xs.flatMap fun a => if p a then f a else []) = (xs.filter p).flatMap f := by
  induction xs with
  | nil =>
      rfl
  | cons x rest ih =>
      rw [List.flatMap_cons, ih]
      cases hx : p x with
      | false =>
          rw [List.filter_cons_of_neg (by simp [hx])]
          rfl
      | true =>
          rw [List.filter_cons_of_pos hx, List.flatMap_cons]
          rfl

theorem completed_cons_of_lt {bits width q : Nat} {rest : List Nat} (hq : q < width)
    (j : Nat) : completed bits width (q :: rest) j =
      (j.testBit 0).toNat + 2 * completed bits width rest (j / 2) :=
  if_pos hq

theorem completed_cons_of_not_lt {bits width q : Nat} {rest : List Nat} (hq : ¬q < width)
    (j : Nat) : completed bits width (q :: rest) j =
      (bits.testBit (q - width)).toNat + 2 * completed bits width rest j :=
  if_neg hq

theorem completed_pair {bits width q : Nat} {rest : List Nat} (hq : q < width) (j : Nat) :
    completed bits width (q :: rest) (2 * j) = 2 * completed bits width rest j ∧
      completed bits width (q :: rest) (2 * j + 1) = 2 * completed bits width rest j + 1 := by
  have hhalf : (2 * j + 1) / 2 = j := by omega
  rw [completed_cons_of_lt hq, completed_cons_of_lt hq, hhalf]
  simp [Nat.add_comm]

theorem filter_fitsGlobal (bits width : Nat) (qs : List Nat) :
    (List.range (twoPow qs.length)).filter (fitsGlobal bits width qs) =
      (List.range (twoPow (qs.filter fun q => q < width).length)).map
        (completed bits width qs) := by
  induction qs with
  | nil =>
      rfl
  | cons q rest ih =>
      have hhalf : forall i, (2 * i + 1) / 2 = i := by
        intro i
        omega
      rw [List.length_cons, twoPow_succ, range_mul_two, List.filter_flatMap]
      by_cases hq : q < width
      · -- Both indices of a pair fit as soon as the rest does.
        have hpair : forall i,
            [2 * i, 2 * i + 1].filter (fitsGlobal bits width (q :: rest)) =
              if fitsGlobal bits width rest i then [2 * i, 2 * i + 1] else [] := by
          intro i
          cases hi : fitsGlobal bits width rest i <;> simp [fitsGlobal, hq, hhalf, hi]
        simp only [hpair]
        rw [flatMap_ite, ih, List.filter_cons_of_pos (by simpa using hq), List.length_cons,
          twoPow_succ, range_mul_two, List.map_flatMap, List.flatMap_map]
        congr 1
        funext j
        rw [List.map_cons, List.map_cons, (completed_pair hq j).1, (completed_pair hq j).2]
        rfl
      · -- Of a pair, the index with the global bit fits.
        have hpair : forall i,
            [2 * i, 2 * i + 1].filter (fitsGlobal bits width (q :: rest)) =
              if fitsGlobal bits width rest i then
                [2 * i + (bits.testBit (q - width)).toNat] else [] := by
          intro i
          cases hi : fitsGlobal bits width rest i <;>
            cases hg : bits.testBit (q - width) <;> simp [fitsGlobal, hq, hhalf, hi, hg]
        simp only [hpair]
        rw [flatMap_ite, ih, List.filter_cons_of_neg (by simpa using hq), List.flatMap_map,
          ← List.map_eq_flatMap]
        apply List.map_congr_left
        intro j _
        rw [completed_cons_of_not_lt hq, Nat.add_comm]

/-!
## The restricted diagonal
-/

variable {R : Type} [Scalar R] {bits width : Nat} {qs inside : List Nat}
  {entries reduced : Buffer R}

theorem toList_zipIdx_eq (b : Buffer R) :
    b.toList.zipIdx = (List.range b.size).map fun i => (b.entry i, i) := by
  apply List.ext_getElem
  · simp
  · intro i hi _
    have hsize : i < b.size := by simpa using hi
    simp [Buffer.entry, Array.getD, hsize]

theorem selected_eq (hsize : entries.size = twoPow qs.length) :
    (entries.toList.zipIdx.filter fun (_, i) =>
        i &&& globalMask width qs == globalChoice bits width qs).map Prod.fst =
      (List.range (twoPow (qs.filter fun q => q < width).length)).map
        fun j => entries.entry (completed bits width qs j) := by
  have hfits : (fun (pair : Amplitude R × Nat) =>
      pair.2 &&& globalMask width qs == globalChoice bits width qs) ∘
        (fun i => (entries.entry i, i)) = fitsGlobal bits width qs := by
    funext i
    exact and_globalMask_beq bits width qs i
  rw [toList_zipIdx_eq, List.filter_map, hfits, hsize, filter_fitsGlobal, List.map_map,
    List.map_map]
  rfl

theorem exists_restrictDiagonal (hqs : forall q, q ∈ qs -> q < width + wordBits)
    (hlen : qs.length ≤ wordBits) (bits : Nat) (entries : Buffer R) :
    exists inside reduced, restrictDiagonal bits width qs entries = .ok (inside, reduced) := by
  have hall : restrictable width qs = true := by
    unfold restrictable
    rw [List.all_eq_true]
    rintro ⟨q, j⟩ hpair
    rcases List.mem_zipIdx' hpair with ⟨hj, hget⟩
    have hq : q < width + wordBits := by
      rw [hget]
      exact hqs _ (List.getElem_mem hj)
    rw [Bool.or_eq_true, Bool.and_eq_true, decide_eq_true_iff, decide_eq_true_iff,
      decide_eq_true_iff]
    omega
  unfold restrictDiagonal
  rw [orCrash_of_true hall, ok_bind]
  dsimp only
  split
  · exact ⟨_, _, rfl⟩
  · exact ⟨_, _, rfl⟩

/-- What is left of a diagonal: over the local positions, or a constant that stands for
both values of position zero. -/
theorem restrictDiagonal_eq_ok (hsize : entries.size = twoPow qs.length)
    (h : restrictDiagonal bits width qs entries = .ok (inside, reduced)) :
    reduced.size = twoPow inside.length ∧
      ((qs.filter (fun q => q < width) ≠ [] ∧ inside = qs.filter (fun q => q < width) ∧
          forall j, j < twoPow inside.length ->
            reduced.entry j = entries.entry (completed bits width qs j)) ∨
        (qs.filter (fun q => q < width) = [] ∧ inside = [0] ∧
          forall j, j < twoPow inside.length ->
            reduced.entry j = entries.entry (completed bits width qs 0))) := by
  unfold restrictDiagonal at h
  rcases bind_eq_ok_iff.mp h with ⟨_, _, h⟩
  dsimp only at h
  rw [selected_eq hsize] at h
  split at h
  · next hnone =>
      rw [hnone] at h ⊢
      cases h
      refine ⟨rfl, Or.inr ⟨rfl, rfl, ?_⟩⟩
      intro j hj
      have hsmall : j = 0 ∨ j = 1 := by
        have hj' : j < 2 := hj
        omega
      rcases hsmall with rfl | rfl <;> rfl
  · next hsome =>
      cases h
      refine ⟨by simp, Or.inl ⟨hsome, rfl, ?_⟩⟩
      intro j hj
      simp [Buffer.entry, Array.getD, hj]

theorem inside_eq_of_restrictDiagonal {bits' : Nat} {inside' : List Nat} {reduced' : Buffer R}
    (hsize : entries.size = twoPow qs.length)
    (h : restrictDiagonal bits width qs entries = .ok (inside, reduced))
    (h' : restrictDiagonal bits' width qs entries = .ok (inside', reduced')) :
    inside = inside' := by
  rcases (restrictDiagonal_eq_ok hsize h).2 with ⟨hsome, hin, _⟩ | ⟨hnone, hin, _⟩
  · rcases (restrictDiagonal_eq_ok hsize h').2 with ⟨_, hin', _⟩ | ⟨hnone, _, _⟩
    · rw [hin, hin']
    · exact absurd hnone hsome
  · rcases (restrictDiagonal_eq_ok hsize h').2 with ⟨hsome, _, _⟩ | ⟨_, hin', _⟩
    · exact absurd hnone hsome
    · rw [hin, hin']

theorem mem_of_restrictDiagonal (hsize : entries.size = twoPow qs.length)
    (h : restrictDiagonal bits width qs entries = .ok (inside, reduced)) {q : Nat}
    (hq : q ∈ inside) : q ∈ qs ∨ q = 0 := by
  rcases (restrictDiagonal_eq_ok hsize h).2 with ⟨_, rfl, _⟩ | ⟨_, rfl, _⟩
  · exact Or.inl (List.mem_of_mem_filter hq)
  · exact Or.inr (by simpa using hq)

theorem entry_restrictDiagonal (hsize : entries.size = twoPow qs.length)
    (h : restrictDiagonal bits width qs entries = .ok (inside, reduced)) (onColumns : Bool)
    (n x : Nat) :
    reduced.entry (gather (sideBits onColumns n inside) x) =
      entries.entry (completed bits width qs
        (gather (sideBits onColumns n (qs.filter fun q => q < width)) x)) := by
  have hlt := gather_lt (sideBits onColumns n inside) x
  rw [length_sideBits] at hlt
  rcases restrictDiagonal_eq_ok hsize h with ⟨_, ⟨_, hinside, hentry⟩ | ⟨hnone, _, hentry⟩⟩
  · rw [hentry _ hlt, hinside]
  · rw [hentry _ hlt, hnone]
    rfl

theorem gather_eq_completed {x y : Nat} {move inner : Nat -> Nat}
    (hbit : forall q, q ∈ qs -> y.testBit (move q) =
      if q < width then x.testBit (inner q) else bits.testBit (q - width)) :
    gather (qs.map move) y =
      completed bits width qs (gather ((qs.filter fun q => q < width).map inner) x) := by
  induction qs with
  | nil =>
      rfl
  | cons q rest ih =>
      rw [List.map_cons, gather_cons, ih fun p hp => hbit p (List.mem_cons_of_mem q hp),
        hbit q List.mem_cons_self]
      by_cases hq : q < width
      · rw [if_pos hq, List.filter_cons_of_pos (by simpa using hq), completed_cons_of_lt hq,
          List.map_cons, gather_cons, testBit_zero_bit, bit_div_two]
      · rw [if_neg hq, List.filter_cons_of_neg (by simpa using hq),
          completed_cons_of_not_lt hq]

theorem gather_embed {place : Place} (hplace : place.Valid) (onColumns : Bool) {x : Nat}
    (hqs : forall q, q ∈ qs -> q < place.register) (hx : x < twoPow (2 * place.width)) :
    gather (sideBits onColumns place.register qs) (place.embed x) =
      completed (place.globalBits onColumns) place.width qs
        (gather (sideBits onColumns place.width (qs.filter fun q => q < place.width)) x) :=
  gather_eq_completed fun q hq => Place.testBit_embed hplace onColumns hx (hqs q hq)

theorem gather_cell {x : Nat} (hx : x < twoPow width) (qs : List Nat) :
    gather qs (cell width x bits) =
      completed bits width qs (gather (qs.filter fun q => q < width) x) := by
  have h : gather (qs.map id) (cell width x bits) =
      completed bits width qs (gather ((qs.filter fun q => q < width).map id) x) :=
    gather_eq_completed fun q _ => testBit_cell bits q hx
  rwa [List.map_id, List.map_id] at h

omit [Scalar R] in
theorem length_le_of_size_lt (hsize : entries.size = twoPow qs.length)
    (hword : entries.size < wordSize) : qs.length ≤ wordBits := by
  by_contra hlong
  have hpow : twoPow 64 ≤ twoPow qs.length := twoPow_le_twoPow (Nat.le_of_not_le hlong)
  rw [hsize, wordSize_eq] at hword
  omega

/-- A diagonal over any listed qubits can be restricted to the global bits of a chunk.  What is
left is over the local ones among them, in their order, whichever the global bits are; where
none is local, qubit zero stands in for them.  A local index spells in it the entry of the
diagonal that it spells together with the global bits above it. -/
theorem restrictDiagonal_selects (hqs : forall q, q ∈ qs -> q < width + wordBits)
    (hsize : entries.size = twoPow qs.length) (hword : entries.size < wordSize) :
    exists inside : List Nat,
      (inside ≠ [] ∧ inside = (qs.filter fun q => q < width) ∨
        inside = [0] ∧ forall q, q ∈ qs -> width ≤ q) ∧
      forall bits, exists reduced, restrictDiagonal bits width qs entries = .ok (inside, reduced) ∧
        reduced.size = twoPow inside.length ∧
        forall x, x < twoPow width ->
          reduced.entry (gather inside x) =
            entries.entry (gather qs (x + bits * twoPow width)) := by
  have hlen := length_le_of_size_lt hsize hword
  rcases exists_restrictDiagonal hqs hlen 0 entries with ⟨inside, reduced₀, hfirst⟩
  refine ⟨inside, ?_, ?_⟩
  · rcases (restrictDiagonal_eq_ok hsize hfirst).2 with ⟨hsome, hinside, _⟩ | ⟨hnone, hinside, _⟩
    · exact Or.inl ⟨hinside ▸ hsome, hinside⟩
    · exact Or.inr ⟨hinside, by simpa [List.filter_eq_nil_iff] using hnone⟩
  · intro bits
    rcases exists_restrictDiagonal hqs hlen bits entries with ⟨inside', reduced, hrestrict⟩
    obtain rfl := inside_eq_of_restrictDiagonal hsize hrestrict hfirst
    refine ⟨reduced, hrestrict, (restrictDiagonal_eq_ok hsize hrestrict).1, ?_⟩
    intro x hx
    have hentry := entry_restrictDiagonal hsize hrestrict false width x
    rw [sideBits_false, sideBits_false, ← gather_cell hx] at hentry
    exact hentry

theorem restrictDiagonal_selects_repeated :
    let entries : Buffer Float := Buffer.tabulate 8 fun i => Amplitude.ofReal (Float.ofNat i)
    exists rows columns, restrictDiagonal 0 2 [2, 0, 2] entries = .ok ([0], rows) ∧
      restrictDiagonal 1 2 [2, 0, 2] entries = .ok ([0], columns) ∧
      rows.entry 1 = Amplitude.ofReal (Float.ofNat 2) ∧
      columns.entry 1 = Amplitude.ofReal (Float.ofNat 7) := by
  intro entries
  have hread : forall i, i < 8 -> entries.entry i = Amplitude.ofReal (Float.ofNat i) := fun i hi =>
    Buffer.entry_tabulate_of_lt _ hi
  have hqs : forall q, q ∈ [2, 0, 2] -> q < 2 + wordBits := by decide
  have hsize : entries.size = twoPow [2, 0, 2].length := Buffer.size_tabulate _ _
  rcases restrictDiagonal_selects hqs hsize (by rw [hsize]; decide) with
    ⟨inside, hinside, hreduced⟩
  have hlocal : inside = [0] := by
    rcases hinside with ⟨_, h⟩ | ⟨h, _⟩
    · exact h
    · exact h
  subst hlocal
  rcases hreduced 0 with ⟨rows, hrows, _, hrow⟩
  rcases hreduced 1 with ⟨columns, hcolumns, _, hcolumn⟩
  refine ⟨rows, columns, hrows, hcolumns, ?_, ?_⟩
  · exact (hrow 1 (by decide)).trans (hread 2 (by decide))
  · exact (hcolumn 1 (by decide)).trans (hread 7 (by decide))

/-!
## Diagonals on a chunk
-/

theorem IsChunk.diagonal {place : Place} {entries full part rows columns : Buffer ℝ}
    (hplace : place.Valid) (h : IsChunk place full part)
    (hqs : forall q, q ∈ qs -> q < place.register) (hlen : qs.length ≤ place.register)
    (hsize : entries.size = twoPow qs.length)
    (hrows : restrictDiagonal (place.globalBits false) place.width qs entries
      = .ok (inside, rows))
    (hcolumns : restrictDiagonal (place.globalBits true) place.width qs entries
      = .ok (inside, columns)) :
    exists full' part',
      Kernel.diagonalUnitary place.register qs entries full = .ok full' ∧
      Kernel.diagonal (bothSides place.width inside) (columns.conj.tensor rows) part
        = .ok part' ∧
      IsChunk place full' part' := by
  have hword := hplace.word
  have hwidth := hplace.width_lt
  have hrowsSize := (restrictDiagonal_eq_ok hsize hrows).1
  have hcolumnsSize := (restrictDiagonal_eq_ok hsize hcolumns).1
  have hinside : inside.length ≤ 1 ∨ inside.length ≤ qs.length := by
    rcases (restrictDiagonal_eq_ok hsize hrows).2 with ⟨_, rfl, _⟩ | ⟨_, rfl, _⟩
    · exact Or.inr (List.length_filter_le _ _)
    · exact Or.inl (Nat.le_refl 1)
  -- Without a local qubit the list has qubit zero, which may be outside the chunk.
  have hinsideLt : forall q, q ∈ inside -> q < place.register := by
    intro q hq
    rcases mem_of_restrictDiagonal hsize hrows hq with hmem | rfl
    · exact hqs q hmem
    · omega
  have hlocal : forall p, p ∈ bothSides place.width inside -> p < wordBits := by
    intro p hp
    rcases List.mem_append.mp hp with hp | hp
    · have hlt := hinsideLt p hp
      omega
    · rcases List.mem_map.mp hp with ⟨q, hq, rfl⟩
      have hlt := hinsideLt q hq
      have hside := side_le true place.width
      omega
  refine ⟨_, _, Kernel.diagonal_eq_ok (bothSides_lt_wordBits hword hqs) ?_ ?_,
    Kernel.diagonal_eq_ok hlocal ?_ ?_, h.tabulate hplace ?_⟩
  · rw [length_bothSides]
    omega
  · rw [length_bothSides, twoPow_two_mul, Buffer.size_tensor, Buffer.size_conj, hsize]
  · rw [length_bothSides]
    omega
  · rw [length_bothSides, twoPow_two_mul, Buffer.size_tensor, Buffer.size_conj, hrowsSize,
      hcolumnsSize]
  · intro x hx
    have hrow := gather_embed hplace false hqs hx
    have hcolumn := gather_embed hplace true hqs hx
    have hrowEntry := entry_restrictDiagonal hsize hrows false place.width x
    have hcolumnEntry := entry_restrictDiagonal hsize hcolumns true place.width x
    simp only [sideBits_false] at hrow hrowEntry
    unfold bothSides
    rw [h.entry_eq x hx,
      Buffer.entry_tensor_gather hrowsSize
        (by rw [Buffer.size_conj, length_sideBits, hcolumnsSize]),
      Buffer.entry_tensor_gather hsize (by rw [Buffer.size_conj, length_sideBits, hsize]),
      Buffer.entry_conj, Buffer.entry_conj, hrow, hcolumn, hrowEntry, hcolumnEntry]

end MixedState
