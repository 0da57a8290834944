import MixedState.Machine.Reduced
import MixedState.Proofs.Machine.Local
import MixedState.Proofs.Machine.Measurement
import MixedState.Proofs.Machine.Saves
import MixedState.Proofs.Pauli.Matrix

/-!
# Readouts agree

The probabilities of the outcomes, the trace and the expectation of a Pauli string are
all read off the buffer in ways of their own.  They are the diagonal, the trace and the
observable of one reduced density matrix.
-/

namespace MixedState

open MixedState.Basis

structure Mat.Holds (d : Nat) (ρ : Entries) (u : Mat ℝ) : Prop where
  rows : u.rows = d
  cols : u.cols = d
  entry : forall a b, a < d -> b < d -> u.entry a b = ρ a b

theorem Mat.holds_ofFn {d : Nat} {ρ : Entries} {f : Nat -> Nat -> Amplitude ℝ}
    (h : forall a b, a < d -> b < d -> f a b = ρ a b) : Holds d ρ (ofFn d d f) where
  rows := rfl
  cols := rfl
  entry a b ha hb := by
    rw [Mat.entry_ofFn f ha hb, h a b ha hb]

theorem Mat.Holds.unique {d : Nat} {ρ σ : Entries} {u v : Mat ℝ} (hu : u.Holds d ρ)
    (hv : v.Holds d σ) (h : forall a b, a < d -> b < d -> ρ a b = σ a b) : u = v := by
  have hsize : u.entries.size = d * d := by
    rw [u.size_entries, hu.rows, hu.cols]
  apply Mat.ext
  · rw [hu.rows, hv.rows]
  · rw [hu.cols, hv.cols]
  · apply Buffer.ext_entry
    · rw [hsize, v.size_entries, hv.rows, hv.cols]
    · intro i hi
      rw [hsize] at hi
      have hpos : 0 < d := Nat.pos_of_mul_pos_right (Nat.lt_of_le_of_lt (Nat.zero_le i) hi)
      have hrow : i / d < d := Nat.div_lt_of_lt_mul hi
      have hcolumn : i % d < d := Nat.mod_lt i hpos
      have hplace : i / d * d + i % d = i := Nat.div_add_mod' i d
      have hleft := hu.entry _ _ hrow hcolumn
      have hright := hv.entry _ _ hrow hcolumn
      unfold Mat.entry at hleft hright
      rw [hu.cols, hplace] at hleft
      rw [hv.cols, hplace] at hright
      rw [hleft, hright, h _ _ hrow hcolumn]

theorem foldl_add_eq_sum {M : Type} [AddCommMonoid M] (n : Nat) (f : Nat -> M) :
    (List.range n).foldl (fun sum i => sum + f i) 0 = ∑ i ∈ Finset.range n, f i := by
  induction n with
  | zero =>
      rfl
  | succ n ih =>
      rw [List.range_succ, List.foldl_append, ih, Finset.sum_range_succ]
      rfl

/-!
## The partial trace
-/

section PartialTrace

variable {n : Nat} {qs : List Nat}

theorem or_scatter_traceBase {t : Nat} (hnodup : qs.Nodup) (hqs : forall q, q ∈ qs -> q < n)
    (hn : 2 * n < wordBits) (ht : t < twoPow (n - qs.length)) (i : Nat) :
    spread (sorted (bothSides n qs)) (t * (twoPow (n - qs.length) + 1))
        ||| scatter (bothSides n qs) i =
      overwrite (bothSides n qs) (cell n (spread (sorted qs) t) (spread (sorted qs) t)) i := by
  have hlen := length_le_of_nodup hnodup hqs
  have hdiagonal : t * (twoPow (n - qs.length) + 1) = cell (n - qs.length) t t := by
    unfold cell
    ring
  unfold wordBits at hn
  have hstart := spread_sorted_lt hlen (by omega) ht
  have hzero : forall q, q ∈ qs -> (spread (sorted qs) t).testBit q = false := fun q hq =>
    testBit_spread_of_mem (by rw [length_sorted]; omega) ht (pairwise_lt_sorted hnodup)
      (mem_sorted.mpr hq)
  rw [hdiagonal, spread_bothSides hnodup hqs (by omega) ht ht hlen]
  apply or_scatter_eq_overwrite
  intro p hp
  rcases List.mem_append.mp hp with hp | hp
  · rw [testBit_cell_row _ hstart (hqs p hp)]
    exact hzero p hp
  · rcases List.mem_map.mp hp with ⟨q, hq, rfl⟩
    change (cell n _ _).testBit (q + n) = false
    rw [testBit_cell_column _ q hstart]
    exact hzero q hq

theorem mul_succ_lt_square {t count : Nat} (ht : t < count) : t * (count + 1) < count * count := by
  calc t * (count + 1)
      < t * count + count := by
        rw [Nat.mul_succ]
        omega
    _ = (t + 1) * count := (Nat.succ_mul t count).symm
    _ ≤ count * count := Nat.mul_le_mul_right count ht

theorem traceBase_lt {base : Nat} (hn : 2 * n ≤ 63) (hlen : qs.length ≤ n)
    (h : base ∈ Machine.traceBases (sorted (bothSides n qs)) (twoPow (n - qs.length))) :
    base < twoPow (2 * n) := by
  rcases List.mem_map.mp h with ⟨t, ht, rfl⟩
  have hroom : 2 * (n - qs.length) + (sorted (bothSides n qs)).length = 2 * n := by
    rw [length_sorted, length_bothSides]
    omega
  have hcount : t * (twoPow (n - qs.length) + 1) < twoPow (2 * (n - qs.length)) := by
    rw [twoPow_two_mul]
    exact mul_succ_lt_square (List.mem_range.mp ht)
  have hlt : spread (sorted (bothSides n qs)) (t * (twoPow (n - qs.length) + 1)) <
      twoPow (2 * (n - qs.length) + (sorted (bothSides n qs)).length) :=
    spread_lt (by omega) hcount
  rw [hroom] at hlt
  exact hlt

end PartialTrace

namespace Machine

variable {m : Machine ℝ} {qs : List Nat} {string : String}

theorem partialTrace_eq_ok (hn : 2 * m.width < wordBits)
    (hfull : m.store.data.size = twoPow (2 * m.width)) (hlen : qs.length ≤ m.width)
    (hqs : forall q, q ∈ qs -> q < m.width) :
    m.partialTrace qs = .ok (Mat.ofFn (twoPow qs.length) (twoPow qs.length) fun r c =>
      (traceBases (sorted (bothSides m.width qs)) (twoPow (m.width - qs.length))).foldl
        (fun sum base => sum + m.store.data.entry
          (base ||| scatter (bothSides m.width qs) (r + c * twoPow qs.length))) 0) := by
  have hword : 2 * m.width < 64 := hn
  have hsquare : twoPow qs.length * twoPow qs.length < wordSize := by
    rw [← twoPow_two_mul, wordSize_eq]
    exact twoPow_lt_twoPow (by omega)
  have hascending : ((sorted (bothSides m.width qs)).all fun q => q + 1 < wordBits) = true := by
    rw [List.all_eq_true]
    intro p hp
    have hlt := lt_of_mem_bothSides hqs p (mem_sorted.mp hp)
    exact decide_eq_true (by omega)
  have hbases : ((traceBases (sorted (bothSides m.width qs))
      (twoPow (m.width - qs.length))).all fun base =>
        (List.range (twoPow qs.length * twoPow qs.length)).all fun i =>
          base ||| scatter (bothSides m.width qs) i < m.store.data.size) = true := by
    rw [List.all_eq_true]
    intro base hbase
    rw [List.all_eq_true]
    intro i _
    rw [hfull]
    exact decide_eq_true (Nat.or_lt_two_pow (traceBase_lt (by omega) hlen hbase)
      (scatter_lt (lt_of_mem_bothSides hqs) i))
  have hbits : shiftPositions m.width qs = .ok (sideBits true m.width qs) :=
    shiftPositions_eq_ok (by omega) (lt_wordBits_of_lt hn hqs)
  unfold partialTrace
  rw [orCrash_of_true (decide_eq_true hlen), ok_bind, checkedShift_of_lt (by omega), ok_bind,
    checkedMul_of_lt hsquare, ok_bind, checkedShift_of_lt (by omega), ok_bind, hbits, ok_bind]
  change (orCrash ((sorted (bothSides m.width qs)).all _) >>= _) = _
  rw [orCrash_of_true hascending, ok_bind]
  dsimp only
  rw [show qs ++ sideBits true m.width qs = bothSides m.width qs from rfl,
    orCrash_of_true hbases, ok_bind]
  rfl

theorem exists_partialTrace (hn : 2 * m.width < wordBits)
    (hfull : m.store.data.size = twoPow (2 * m.width)) (hnodup : qs.Nodup)
    (hqs : forall q, q ∈ qs -> q < m.width) :
    exists reduced, m.partialTrace qs = .ok reduced ∧
      reduced.Holds (twoPow qs.length)
        (reduceTo m.width qs (m.store.data.toEntries m.width)) := by
  have hlen := length_le_of_nodup hnodup hqs
  have hword : 2 * m.width < 64 := hn
  refine ⟨_, partialTrace_eq_ok hn hfull hlen hqs, Mat.holds_ofFn ?_⟩
  intro a b ha hb
  unfold traceBases
  rw [List.foldl_map, foldl_add_eq_sum, reduceTo_eq_sum_blocks hnodup hqs (by omega) ha]
  apply Finset.sum_congr rfl
  intro t ht
  have ht := Finset.mem_range.mp ht
  have hstart : spread (sorted qs) t < twoPow m.width := spread_sorted_lt hlen (by omega) ht
  rw [or_scatter_traceBase hnodup hqs hn ht, Nat.mul_comm b,
    overwrite_bothSides hnodup hqs hstart hstart ha hb]
  rfl

theorem exists_reduced (hwhole : m.width = m.store.qubits) (hn : 2 * m.width < wordBits)
    (hfull : m.store.data.size = twoPow (2 * m.width)) (hne : qs ≠ []) (hnodup : qs.Nodup)
    (hqs : forall q, q ∈ qs -> q < m.width) :
    exists reduced, (m.reduced qs false).1 = .ok reduced ∧
      reduced.Holds (twoPow qs.length)
        (reduceTo m.width qs (m.store.data.toEntries m.width)) := by
  have hempty : qs.isEmpty = false := by
    rw [List.isEmpty_eq_false_iff]
    exact hne
  cases hall : m.isWholeRegister qs with
  | false =>
      rcases exists_partialTrace hn hfull hnodup hqs with ⟨reduced, hreduced, hholds⟩
      refine ⟨reduced, ?_, hholds⟩
      unfold Machine.reduced
      rw [requireWhole_of_whole hwhole, hempty, hall]
      exact hreduced
  | true =>
      have hrange : qs = List.range m.width := eq_of_beq hall
      have hsplit : m.isSplit = false :=
        decide_eq_false (by change ¬m.store.qubits < m.width; omega)
      have hsize : twoPow m.width * twoPow m.width ≤ m.store.data.size := by
        rw [hfull, twoPow_two_mul]
      have hcopy : m.store.copy = .ok (Mat.ofFn (twoPow m.width) (twoPow m.width)
          fun r c => m.store.data.entry (r + c * twoPow m.width)) := by
        unfold Store.copy Store.dim Mat.ofColumns
        rw [← hwhole, checkedShift_of_lt (by omega), ok_bind, if_pos hsize]
      rw [reduced_of_whole hsplit hempty hall, hrange, List.length_range]
      refine ⟨_, hcopy, Mat.holds_ofFn ?_⟩
      intro a b ha hb
      rw [reduceTo_range ha hb]
      rfl

/-!
## Trace and expectation
-/

theorem trace_eq_ok (hwhole : m.width = m.store.qubits) (hn : 2 * m.width < wordBits)
    (hfull : m.store.data.size = twoPow (2 * m.width)) :
    m.store.trace = .ok (∑ x ∈ Finset.range (twoPow m.width),
      (m.store.data.entry (cell m.width x x)).re) := by
  have hprobabilities := Store.probabilities_eq_ok_iff.mpr
    ⟨⟨show m.store.qubits < wordBits by omega, by rw [hfull, ← hwhole, twoPow_two_mul]⟩, rfl⟩
  unfold Store.trace
  rw [hprobabilities, ok_bind, List.foldl_map, foldl_add_eq_sum, ← hwhole]
  rfl

theorem expectation_eq_ok (hwhole : m.width = m.store.qubits) (hn : 2 * m.width < wordBits)
    (hfull : m.store.data.size = twoPow (2 * m.width))
    (hqs : forall q, q ∈ qs -> q < m.width) (hstring : Spells qs string) :
    m.store.expectation qs string = .ok (∑ x ∈ Finset.range (twoPow m.width),
      ((masksOf qs string).phase x * m.store.data.entry
        (cell m.width x (x ^^^ (masksOf qs string).x))).re) := by
  have hword := lt_wordBits_of_lt hn hqs
  have hmask : (masksOf qs string).x < twoPow m.width := by
    unfold masksOf PauliMasks.extend
    rw [Nat.zero_or]
    exact bitMask_lt fun q hq => hqs q (mem_of_mem_flipped hq)
  have hroom : (decide ((masksOf qs string).x < twoPow m.width)
      && decide (twoPow m.width * twoPow m.width ≤ m.store.data.size)) = true := by
    rw [decide_eq_true hmask, hfull, twoPow_two_mul, decide_eq_true (Nat.le_refl _)]
    rfl
  unfold Store.expectation Store.dim
  rw [hstring.ofString_eq_ok_single hword, ok_bind, ← hwhole, checkedShift_of_lt (by omega),
    ok_bind, orCrash_of_true hroom, ok_bind, sumBelow_eq_sum]
  rfl

theorem sum_phase_eq_trace (hn : 2 * m.width < wordBits) (hnodup : qs.Nodup)
    (hqs : forall q, q ∈ qs -> q < m.width) (hstring : Spells qs string) (ρ : Entries) :
    ∑ x ∈ Finset.range (twoPow m.width),
        ((masksOf qs string).phase x * ρ x (x ^^^ (masksOf qs string).x)).re =
      (∑ a ∈ Finset.range (twoPow qs.length), ∑ b ∈ Finset.range (twoPow qs.length),
        (pauliMatrix string).entry a b * reduceTo m.width qs ρ b a).re := by
  rw [← trace_liftOn_mul hnodup hqs, Amplitude.re_sum]
  apply Finset.sum_congr rfl
  intro x hx
  rw [sum_liftOn_pauliMatrix hstring hnodup hqs (by omega) (Finset.mem_range.mp hx) (ρ x)]

theorem re_phase_of_isDiagonalPauli (hnodup : qs.Nodup)
    (hqs : forall q, q ∈ qs -> q < wordBits) (hstring : Spells qs string)
    (hdiagonal : isDiagonalPauli string = true) (ρ : Entries) (x : Nat) :
    ((masksOf qs string).phase x * ρ x (x ^^^ (masksOf qs string).x)).re =
      (-1) ^ (placesOfZ string.toList.reverse 0).countP (gather qs x).testBit * (ρ x x).re := by
  have hnoY : ((lettered qs string).map Prod.snd).count 'Y' = 0 := by
    rw [List.count_eq_zero]
    intro hmem
    rcases List.mem_map.mp hmem with ⟨pair, hpair, hletter⟩
    have hc := List.mem_reverse.mp (List.of_mem_zip hpair).2
    rw [hletter] at hc
    rcases isPauliLetter_of_isDiagonalPauli hdiagonal 'Y' hc with h | h <;> cases h
  have hphase : (masksOf qs string).phase x =
      signAt (placesOfZ string.toList.reverse 0) (gather qs x) := by
    rw [hstring.phase_masksOf hnodup hqs, ← pow_mul_signAt_signedOf (by
      rw [List.length_reverse, hstring.length])]
    change Amplitude.unit ^ ((lettered qs string).map Prod.snd).count 'Y' *
      signAt (signed qs string) x = _
    rw [hnoY, pow_zero, one_mul, signAt_placesOfZ hstring.bytes hdiagonal]
  have hstays : (masksOf qs string).x = 0 := by
    unfold masksOf PauliMasks.extend
    change 0 ||| bitMask (flipped qs string) = 0
    rw [flipped_eq_nil hdiagonal]
    rfl
  rw [hphase, hstays, Nat.xor_zero]
  unfold signAt
  rcases Nat.mod_two_eq_zero_or_one
    ((placesOfZ string.toList.reverse 0).countP (gather qs x).testBit) with h | h
  · rw [h, if_neg Nat.zero_ne_one, one_mul, (Nat.even_iff.mpr h).neg_one_pow, one_mul]
  · rw [h, if_pos rfl, (Nat.odd_iff.mpr h).neg_one_pow]
    simp

/-!
## Probabilities
-/

theorem marginal_eq_sum (hwhole : m.width = m.store.qubits) (a : Nat) :
    m.store.marginal qs a = ∑ x ∈ Finset.range (twoPow m.width),
      if gather qs x = a then (m.store.data.toEntries m.width x x).re else 0 := by
  unfold Store.marginal
  rw [← hwhole]
  rfl

theorem sum_mul_marginal (qs : List Nat) (hwhole : m.width = m.store.qubits) (g : Nat -> ℝ) :
    ∑ a ∈ Finset.range (twoPow qs.length), g a * m.store.marginal qs a =
      ∑ x ∈ Finset.range (twoPow m.width),
        g (gather qs x) * (m.store.data.toEntries m.width x x).re := by
  simp only [marginal_eq_sum hwhole, Finset.mul_sum, mul_ite, mul_zero]
  rw [Finset.sum_comm]
  apply Finset.sum_congr rfl
  intro x _
  rw [Finset.sum_ite_eq, if_pos (Finset.mem_range.mpr (gather_lt qs x))]

/-!
## On a register
-/

section Register

variable {n : Nat}

theorem Hosts.exists_reduced (h : m.Hosts n qs) (hfull : m.store.data.size = twoPow (2 * n))
    (hne : qs ≠ []) :
    exists reduced, (m.reduced qs false).1 = .ok reduced ∧
      reduced.Holds (twoPow qs.length) (reduceTo n qs (m.store.data.toEntries n)) := by
  have hwhole := h.width_eq
  obtain rfl := h.width
  exact Machine.exists_reduced hwhole h.twice_lt hfull hne h.nodup h.inside

theorem Hosts.probabilities_eq_ok (h : m.Hosts n qs)
    (hfull : m.store.data.size = twoPow (2 * n)) :
    m.outcomeProbabilities qs =
      .ok ((List.range (twoPow qs.length)).map fun a => ∑ x ∈ Finset.range (twoPow n),
        if gather qs x = a then (m.store.data.toEntries n x x).re else 0) := by
  have hwhole := h.width_eq
  obtain rfl := h.width
  have hlen : qs.length < 60 := by
    have htwice : 2 * qs.length < 64 := h.twice_length_lt
    omega
  rw [(outcomeProbabilities_eq_ok_iff hwhole h.inside).mpr
    ⟨⟨h.qubits_lt, by rw [hfull, ← hwhole, twoPow_two_mul], Or.inl hlen⟩, rfl⟩]
  exact congrArg Except.ok (List.map_congr_left fun a _ => marginal_eq_sum hwhole a)

theorem IsRegister.trace_eq_ok (h : m.IsRegister n) (hn : 2 * n < wordBits)
    (hfull : m.store.data.size = twoPow (2 * n)) :
    m.store.trace = .ok (∑ x ∈ Finset.range (twoPow n), (m.store.data.toEntries n x x).re) := by
  have hwhole := h.width_eq
  obtain rfl := h.width
  exact Machine.trace_eq_ok hwhole hn hfull

theorem Hosts.expectation_eq_ok (h : m.Hosts n qs) (hfull : m.store.data.size = twoPow (2 * n))
    (hstring : Spells qs string) :
    m.store.expectation qs string =
      .ok (∑ a ∈ Finset.range (twoPow qs.length), ∑ b ∈ Finset.range (twoPow qs.length),
        (pauliMatrix string).entry a b *
          reduceTo n qs (m.store.data.toEntries n) b a).re := by
  have hwhole := h.width_eq
  obtain rfl := h.width
  rw [← sum_phase_eq_trace h.twice_lt h.nodup h.inside hstring]
  exact Machine.expectation_eq_ok hwhole h.twice_lt hfull h.inside hstring

end Register

/-!
## One reduced matrix
-/

/-- What is read off `k` qubits belongs to one density matrix `reduced`. -/
structure ReadoutsAgree (k : Nat) (string : String) (reduced : Mat ℝ) (weights : List ℝ)
    (trace value : ℝ) : Prop where
  rows : reduced.rows = twoPow k
  cols : reduced.cols = twoPow k
  length : weights.length = twoPow k
  /-- The probability of an outcome is its diagonal entry. -/
  diagonal : forall a, a < twoPow k ->
    reduced.entry a a = Amplitude.ofReal (weights.getD a 0)
  /-- The probabilities add up to the trace. -/
  total : weights.sum = trace
  /-- The expectation is the real part of the trace of the string with the matrix. -/
  observable : value = (∑ a ∈ Finset.range (twoPow k), ∑ b ∈ Finset.range (twoPow k),
    (pauliMatrix string).entry a b * reduced.entry b a).re
  /-- A string of I and Z signs each probability by the set bits at its letters Z. -/
  signs : isDiagonalPauli string = true -> value = ∑ a ∈ Finset.range (twoPow k),
    (-1) ^ (placesOfZ string.toList.reverse 0).countP a.testBit * weights.getD a 0

/-- On a register with a Hermitian buffer every readout succeeds, and they agree. -/
theorem exists_readoutsAgree (hwhole : m.width = m.store.qubits) (hn : 2 * m.width < wordBits)
    (hfull : m.store.data.size = twoPow (2 * m.width))
    (hhermitian : forall r c, r < twoPow m.width -> c < twoPow m.width ->
      m.store.data.entry (cell m.width r c) = (m.store.data.entry (cell m.width c r)).conj)
    (hne : qs ≠ []) (hnodup : qs.Nodup) (hqs : forall q, q ∈ qs -> q < m.width)
    (hstring : Spells qs string) :
    exists reduced weights trace value,
      (m.reduced qs false).1 = .ok reduced ∧ m.outcomeProbabilities qs = .ok weights ∧
      m.store.trace = .ok trace ∧ m.store.expectation qs string = .ok value ∧
      ReadoutsAgree qs.length string reduced weights trace value := by
  have hlen := length_le_of_nodup hnodup hqs
  have hword := lt_wordBits_of_lt hn hqs
  obtain ⟨reduced, hreduced, hholds⟩ := exists_reduced hwhole hn hfull hne hnodup hqs
  have hbits : wordBits = 64 := rfl
  have hprobabilities := (outcomeProbabilities_eq_ok_iff hwhole hqs).mpr
    ⟨⟨show m.store.qubits < wordBits by omega, by rw [hfull, ← hwhole, twoPow_two_mul],
      Or.inl (by omega)⟩, rfl⟩
  have hexpectation := expectation_eq_ok hwhole hn hfull hqs hstring
  refine ⟨reduced, _, _, _, hreduced, hprobabilities, trace_eq_ok hwhole hn hfull,
    hexpectation, ?_⟩
  constructor
  · exact hholds.rows
  · exact hholds.cols
  · rw [List.length_map, List.length_range]
  · intro a ha
    rw [hholds.entry a a ha ha, getD_map_range _ ha, marginal_eq_sum hwhole,
      reduceTo_self_eq_ofReal hnodup fun x hx => hhermitian x x hx hx]
  · have hones := sum_mul_marginal qs hwhole fun _ => 1
    simp only [one_mul] at hones
    rw [sum_map_range, hones]
    rfl
  · have hentries : forall a, a ∈ Finset.range (twoPow qs.length) ->
        ∑ b ∈ Finset.range (twoPow qs.length),
          (pauliMatrix string).entry a b * reduced.entry b a =
        ∑ b ∈ Finset.range (twoPow qs.length), (pauliMatrix string).entry a b *
          reduceTo m.width qs (m.store.data.toEntries m.width) b a := by
      intro a ha
      apply Finset.sum_congr rfl
      intro b hb
      rw [hholds.entry b a (Finset.mem_range.mp hb) (Finset.mem_range.mp ha)]
    rw [Finset.sum_congr rfl hentries, ← sum_phase_eq_trace hn hnodup hqs hstring]
    rfl
  · intro hdiagonal
    have hweights : forall a, a ∈ Finset.range (twoPow qs.length) ->
        (-1 : ℝ) ^ (placesOfZ string.toList.reverse 0).countP a.testBit *
          ((List.range (twoPow qs.length)).map (m.store.marginal qs)).getD a 0 =
        (-1) ^ (placesOfZ string.toList.reverse 0).countP a.testBit *
          m.store.marginal qs a := by
      intro a ha
      rw [getD_map_range _ (Finset.mem_range.mp ha)]
    rw [Finset.sum_congr rfl hweights, sum_mul_marginal qs hwhole fun a =>
      (-1) ^ (placesOfZ string.toList.reverse 0).countP a.testBit]
    apply Finset.sum_congr rfl
    intro x _
    exact re_phase_of_isDiagonalPauli hnodup hword hstring hdiagonal
      (m.store.data.toEntries m.width) x

/-- Of two qubits the first is set; the list begins with the second, and the string signs
by the first. -/
theorem exists_readoutsAgree_one :
    isDiagonalPauli "ZI" = true ∧
      exists (reduced : Mat ℝ) (weights : List ℝ) (trace value : ℝ),
        ((ofStore ⟨2, 0, Buffer.tabulate 16 fun x => if x = 5 then 1 else 0⟩).reduced
          [1, 0] false).1 = .ok reduced ∧
        ReadoutsAgree 2 "ZI" reduced weights trace value := by
  have hfull : (Buffer.tabulate 16 fun x => if x = 5 then 1 else 0 : Buffer ℝ).size =
      twoPow (2 * 2) := Buffer.size_tabulate _ _
  have hhermitian : forall r c, r < twoPow 2 -> c < twoPow 2 ->
      (Buffer.tabulate 16 fun x => if x = 5 then 1 else 0 : Buffer ℝ).entry (cell 2 r c) =
        ((Buffer.tabulate 16 fun x => if x = 5 then 1 else 0 : Buffer ℝ).entry
          (cell 2 c r)).conj := by
    intro r c hr hc
    have hsame : cell 2 r c = 5 ↔ cell 2 c r = 5 := by
      change r < 4 at hr
      change c < 4 at hc
      change r + c * 4 = 5 ↔ c + r * 4 = 5
      omega
    have hcell : cell 2 r c < 16 := cell_lt hr hc
    have hmirror : cell 2 c r < 16 := cell_lt hc hr
    rw [Buffer.entry_tabulate_of_lt _ hcell, Buffer.entry_tabulate_of_lt _ hmirror,
      Amplitude.conj_ite, Amplitude.conj_one, Amplitude.conj_zero]
    exact if_congr hsame rfl rfl
  have hstring : Spells [1, 0] "ZI" := ⟨by decide, List.all_eq_true.mp rfl⟩
  obtain ⟨reduced, weights, trace, value, hreduced, _, _, _, hagree⟩ :=
    exists_readoutsAgree (m := ofStore ⟨2, 0, Buffer.tabulate 16 fun x => if x = 5 then 1 else 0⟩)
      rfl (by decide) hfull hhermitian (by decide) (by decide) (by decide) hstring
  exact ⟨by decide, reduced, weights, trace, value, hreduced, hagree⟩

end Machine

end MixedState
