import MixedState.Proofs.Command.Shots

/-!
# Draws from drifted states

Rounding may leave small negative entries on the diagonal, and then the running sums that
are searched do not ascend.  The search still ends where they pass the variate, so that the
sum was raised at the place it finds.
-/

namespace MixedState

open MixedState.Basis

/-!
## What a variate selects
-/

section Selection

variable {f : Nat -> ℝ} {n : Nat} {r : ℝ}

noncomputable def selected (f : Nat -> ℝ) (n : Nat) (r : ℝ) : Nat :=
  let weights := (List.range n).map f
  selectPlace (lastPositive weights) (partialSums 0 weights).toArray r

/-- Place `k` has weight.  Where no weight is negative, the sums on both of its sides enclose
`r`, or no later place has weight. -/
structure Selects (f : Nat -> ℝ) (n : Nat) (r : ℝ) (k : Nat) : Prop where
  lt : k < n
  possible : 0 < f k
  encloses : (forall i, i < n -> 0 ≤ f i) -> r < ∑ i ∈ Finset.range n, f i ->
    forall j, j < n ->
      (∑ i ∈ Finset.range j, f i ≤ r ∧ r < ∑ i ∈ Finset.range (j + 1), f i ↔ j = k)
  exhausts : (forall i, i < n -> 0 ≤ f i) -> ∑ i ∈ Finset.range n, f i ≤ r ->
    forall j, j < n -> k < j -> f j = 0

theorem getD_partialSums_range (f : Nat -> ℝ) {i : Nat} (hi : i < n) :
    (partialSums 0 ((List.range n).map f)).getD i 0 = ∑ j ∈ Finset.range (i + 1), f j := by
  have hlength : ((List.range n).map f).length = n := by
    rw [List.length_map, List.length_range]
  induction i with
  | zero =>
      rcases Nat.exists_eq_add_one_of_ne_zero (Nat.ne_of_gt hi) with ⟨rest, rfl⟩
      rw [List.range_succ_eq_map, List.map_cons, getD_partialSums_zero, Finset.sum_range_one]
      exact zero_add (f 0)
  | succ i ih =>
      rw [getD_partialSums_succ (by rw [hlength]; exact hi), ih (Nat.lt_of_succ_lt hi),
        Machine.getD_map_range f hi, Finset.sum_range_succ f (i + 1)]

theorem sum_range_mono (hnonneg : forall i, i < n -> 0 ≤ f i) {j k : Nat} (hjk : j ≤ k)
    (hk : k ≤ n) : ∑ i ∈ Finset.range j, f i ≤ ∑ i ∈ Finset.range k, f i := by
  apply Finset.sum_le_sum_of_subset_of_nonneg (Finset.range_mono hjk)
  intro i hi _
  exact hnonneg i (Nat.lt_of_lt_of_le (Finset.mem_range.mp hi) hk)

/-- The search ends at `turn`, where the sum passes `r`, and `last` is the last place with
weight. -/
structure Found (f : Nat -> ℝ) (n : Nat) (r : ℝ) (turn last : Nat) : Prop where
  turn_le : turn ≤ n
  last_lt : last < n
  weight : 0 < f last
  later : forall j, j < n -> last < j -> f j ≤ 0
  reached : ∑ i ∈ Finset.range turn, f i ≤ r
  exceeds : turn < n -> r < ∑ i ∈ Finset.range (turn + 1), f i

theorem exists_found (hpos : exists i, i < n ∧ 0 < f i) (hr : 0 ≤ r) :
    exists turn last, selected f n r = min turn last ∧ Found f n r turn last := by
  have hlength : ((List.range n).map f).length = n := by
    rw [List.length_map, List.length_range]
  have hsums : forall i, (partialSums 0 ((List.range n).map f)).toArray.getD i 0 =
      (partialSums 0 ((List.range n).map f)).getD i 0 := by
    intro i
    simp [Array.getD_eq_getD_getElem?, List.getD_eq_getElem?_getD]
  rcases hpos with ⟨i, hi, hpos⟩
  have hmem : f i ∈ (List.range n).map f := List.mem_map.mpr ⟨i, List.mem_range.mpr hi, rfl⟩
  have hlast := lastPositive_lt (List.ne_nil_of_mem hmem)
  have hweight := lt_lastPositive hmem (decide_eq_true hpos)
  rw [hlength] at hlast
  rw [Machine.getD_map_range f hlast] at hweight
  have hturn := partitionPoint_turnsAt
    (fun i => Scalar.le ((partialSums 0 ((List.range n).map f)).getD i 0) r) n
  refine ⟨_, _, ?_, hturn.le, hlast, of_decide_eq_true hweight, ?_, ?_, ?_⟩
  · unfold selected selectPlace
    simp only [hsums, List.size_toArray, length_partialSums, hlength]
  · intro j hj hlater
    by_contra hweight
    have hpositive : Scalar.lt 0 (((List.range n).map f).getD j 0) = true := by
      rw [Machine.getD_map_range f hj]
      exact decide_eq_true (not_le.mp hweight)
    have hle := le_lastPositive (hlength.symm ▸ hj) hpositive
    exact Nat.not_lt_of_le hle hlater
  · cases hplace : partitionPoint _ n with
    | zero =>
        rw [Finset.sum_range_zero]
        exact hr
    | succ k =>
        have hreached := hturn.before k hplace.symm
        rw [getD_partialSums_range f (by have hle := hturn.le; omega)] at hreached
        exact of_decide_eq_true hreached
  · intro hlt
    have hexceeds := hturn.after hlt
    rw [getD_partialSums_range f hlt] at hexceeds
    exact not_le.mp (of_decide_eq_false hexceeds)

namespace Found

variable {turn last : Nat}

theorem raised (h : Found f n r turn last) (hlt : turn < n) : 0 < f turn := by
  have hsum := h.exceeds hlt
  rw [Finset.sum_range_succ] at hsum
  linarith [h.reached]

theorem turn_le_last (h : Found f n r turn last) (hlt : turn < n) : turn ≤ last := by
  by_contra hbehind
  exact absurd (h.raised hlt) (not_lt.mpr (h.later turn hlt (by omega)))

theorem possible (h : Found f n r turn last) : 0 < f (min turn last) := by
  have hlast := h.last_lt
  rcases Nat.lt_or_ge turn last with hlt | hge
  · rw [Nat.min_eq_left (Nat.le_of_lt hlt)]
    exact h.raised (by omega)
  · rw [Nat.min_eq_right hge]
    exact h.weight

theorem turn_lt (h : Found f n r turn last) (htotal : r < ∑ i ∈ Finset.range n, f i) :
    turn < n := by
  apply Nat.lt_of_le_of_ne h.turn_le
  rintro rfl
  exact absurd htotal (not_lt.mpr h.reached)

theorem encloses_iff (h : Found f n r turn last) (hnonneg : forall i, i < n -> 0 ≤ f i)
    (hlt : turn < n) {j : Nat} (hj : j < n) :
    ∑ i ∈ Finset.range j, f i ≤ r ∧ r < ∑ i ∈ Finset.range (j + 1), f i ↔ j = turn := by
  have hreached := h.reached
  have hexceeds := h.exceeds hlt
  constructor
  · rintro ⟨hbelow, habove⟩
    rcases Nat.lt_trichotomy j turn with hbefore | hsame | hbehind
    · have hmono := sum_range_mono hnonneg (Nat.succ_le_of_lt hbefore) h.turn_le
      linarith
    · exact hsame
    · have hmono := sum_range_mono hnonneg (Nat.succ_le_of_lt hbehind) (Nat.le_of_lt hj)
      linarith
  · rintro rfl
    exact ⟨hreached, hexceeds⟩

theorem turn_eq (h : Found f n r turn last) (hnonneg : forall i, i < n -> 0 ≤ f i)
    (htotal : ∑ i ∈ Finset.range n, f i ≤ r) : turn = n := by
  apply Nat.le_antisymm h.turn_le
  by_contra hnot
  have hlt := Nat.lt_of_not_le hnot
  have hmono := sum_range_mono hnonneg (Nat.succ_le_of_lt hlt) (Nat.le_refl n)
  linarith [h.exceeds hlt]

end Found

theorem selects_selected (hpos : exists i, i < n ∧ 0 < f i) (hr : 0 ≤ r) :
    Selects f n r (selected f n r) := by
  rcases exists_found hpos hr with ⟨turn, last, hselected, hfound⟩
  rw [hselected]
  refine ⟨Nat.lt_of_le_of_lt (Nat.min_le_right turn last) hfound.last_lt, hfound.possible, ?_, ?_⟩
  · intro hnonneg htotal j hj
    have hlt := hfound.turn_lt htotal
    rw [Nat.min_eq_left (hfound.turn_le_last hlt)]
    exact hfound.encloses_iff hnonneg hlt hj
  · intro hnonneg htotal j hj hbehind
    rw [hfound.turn_eq hnonneg htotal, Nat.min_eq_right (Nat.le_of_lt hfound.last_lt)] at hbehind
    exact le_antisymm (hfound.later j hj hbehind) (hnonneg j hj)

end Selection

/-!
## Draws from a register
-/

section Register

variable {m : Machine ℝ} {n c : Nat} {qs : List Nat}

theorem Store.HasShape.sample {s : Store ℝ} (h : s.HasShape n (twoPow (2 * n)))
    (hn : n < wordBits) (variates : List ℝ) :
    s.sample variates = .ok (variates.map (selected s.diagonal (twoPow n))) := by
  unfold Store.sample
  rw [h.probabilities hn, ok_bind]
  rfl

theorem Machine.HasShape.outcomeProbabilities (h : m.HasShape n n c) (hn : n < wordBits)
    (hqs : forall q, q ∈ qs -> q < wordBits) (hlen : qs.length < 60) :
    m.outcomeProbabilities qs =
      .ok ((List.range (twoPow qs.length)).map (m.store.marginal qs)) := by
  have hqubits := h.store.qubits
  have hwhole : m.width = m.store.qubits := h.width.trans hqubits.symm
  have hsize : twoPow m.store.qubits * twoPow m.store.qubits ≤ m.store.data.size := by
    rw [h.store.size_data, hqubits, twoPow_two_mul]
  by_cases hall : m.isWholeRegister qs = true
  · have hinside : forall q, q ∈ qs -> q < m.width := by
      intro q hq
      rw [show qs = List.range m.width from eq_of_beq hall] at hq
      exact List.mem_range.mp hq
    exact (Machine.outcomeProbabilities_eq_ok_iff hwhole hinside).mpr
      ⟨⟨hqubits ▸ hn, hsize, Or.inl hlen⟩, rfl⟩
  · unfold Machine.outcomeProbabilities
    rw [Machine.requireWhole_of_whole hwhole, ok_bind,
      Store.probabilities_eq_ok_iff.mpr ⟨⟨hqubits ▸ hn, hsize⟩, rfl⟩, ok_bind, if_neg hall,
      checkedShift_of_lt (Nat.lt_trans hlen (by decide)), ok_bind, allocate_eight_of_lt hlen,
      ok_bind, Basis.addressable_eq_ok_iff.mpr hqs, ok_bind]
    exact congrArg Except.ok (List.map_congr_left fun o _ => Machine.outcomeWeight_eq_sum qs _ _ o)

theorem Machine.HasShape.sample_eq_gather (h : m.HasShape n n c) (hn : n < wordBits)
    (hqs : forall q, q ∈ qs -> q < wordBits) (hlen : qs.length ≤ wordBits) {shots : Nat}
    (hroom : shots * 8 < bufferLimit) (source : Source) :
    m.sample qs shots source =
      .ok ((source.variates shots).1.map fun v =>
        gather qs (selected m.store.diagonal (twoPow n) (unitFraction v)),
        (source.variates shots).2) := by
  have hwhole : m.width = m.store.qubits := h.width.trans h.store.qubits.symm
  unfold Machine.sample
  rw [Machine.requireWhole_of_whole hwhole, ok_bind, allocate_of_lt hroom, ok_bind]
  dsimp only
  rw [h.store.sample hn, ok_bind, mapM_gather hqs hlen, List.map_map, List.map_map]
  rfl

theorem Store.marginal_pos {s : Store ℝ}
    (hnonneg : forall x, x < twoPow s.qubits -> 0 ≤ s.diagonal x) {x : Nat}
    (hx : x < twoPow s.qubits) (hpos : 0 < s.diagonal x) (qs : List Nat) :
    0 < s.marginal qs (gather qs x) := by
  apply Finset.sum_pos'
  · intro y hy
    split
    · exact hnonneg y (Finset.mem_range.mp hy)
    · exact le_refl 0
  · refine ⟨x, Finset.mem_range.mpr hx, ?_⟩
    rw [if_pos rfl]
    exact hpos

/-- Every variate selects a place with weight, however the diagonal has drifted; where no
entry has become negative, every outcome that is drawn is possible.  The draws and the weights
fit in memory. -/
theorem sample_selects_possible (h : m.HasShape n n c) (hn : n < wordBits)
    (hpos : exists x, x < twoPow n ∧ 0 < m.store.diagonal x) :
    (forall variates : List ℝ, (forall r, r ∈ variates -> 0 ≤ r) ->
      exists places, m.store.sample variates = .ok places ∧
        List.Forall₂ (Selects m.store.diagonal (twoPow n)) variates places) ∧
    ((forall x, x < twoPow n -> 0 ≤ m.store.diagonal x) ->
      forall qs shots source, (forall q, q ∈ qs -> q < wordBits) ->
        shots * 8 < bufferLimit -> twoPow qs.length * 8 < bufferLimit ->
        exists outcomes weights,
          m.sample qs shots source = .ok (outcomes, (source.variates shots).2) ∧
          outcomes.length = shots ∧ m.outcomeProbabilities qs = .ok weights ∧
          forall o, o ∈ outcomes -> exists p, weights[o]? = some p ∧ 0 < p) := by
  constructor
  · intro variates hvariates
    refine ⟨_, h.store.sample hn variates, ?_⟩
    rw [List.forall₂_map_right_iff]
    apply List.forall₂_same.mpr
    intro r hr
    exact selects_selected hpos (hvariates r hr)
  · intro hnonneg qs shots source hqs hdraws hweights
    have hlen : qs.length < 60 := twoPow_mul_eight_lt_iff.mp hweights
    have hword : qs.length < wordBits := Nat.lt_trans hlen (by decide)
    refine ⟨_, _, h.sample_eq_gather hn hqs (Nat.le_of_lt hword) hdraws source, ?_,
      h.outcomeProbabilities hn hqs hlen, ?_⟩
    · rw [List.length_map, Source.length_variates]
    · intro o ho
      rcases List.mem_map.mp ho with ⟨v, _, rfl⟩
      have hdraw : (0 : ℝ) ≤ unitFraction v :=
        of_decide_eq_true (Scalar.accumulates_real.draw_nonneg v)
      have hselects := selects_selected hpos hdraw
      have hqubits := h.store.qubits
      refine ⟨m.store.marginal qs (gather qs (selected m.store.diagonal (twoPow n)
        (unitFraction v))), ?_, ?_⟩
      · rw [List.getElem?_map, List.getElem?_range (gather_lt qs _)]
        rfl
      · exact Store.marginal_pos (hqubits.symm ▸ hnonneg) (hqubits.symm ▸ hselects.lt)
          hselects.possible qs

/-- The running sums 1/2, 1/2, 3/8, 1 do not ascend, and 7/16 lies where they fall.  The other
state is one of a single qubit, which is drawn three times. -/
theorem sample_selects_possible_drifted :
    let drifted : Machine ℝ := .ofStore ⟨2, 0, Buffer.tabulate 16 fun x =>
      ⟨if x = 0 then 1 / 2 else if x = 10 then -(1 / 8) else if x = 15 then 5 / 8 else 0, 0⟩⟩
    let one : Machine ℝ := .ofStore ⟨1, 0, Buffer.tabulate 4 fun x =>
      ⟨if x = 3 then 1 else 0, 0⟩⟩
    (exists k, drifted.store.sample [7 / 16] = .ok [k] ∧ 0 < drifted.store.diagonal k) ∧
      exists outcomes weights,
        one.sample [0] 3 (.ofSeed 7) = .ok (outcomes, ((Source.ofSeed 7).variates 3).2) ∧
        one.outcomeProbabilities [0] = .ok weights ∧
        forall o, o ∈ outcomes -> exists p, weights[o]? = some p ∧ 0 < p := by
  intro drifted one
  have hdrifted : drifted.HasShape 2 2 0 := ⟨rfl, ⟨rfl, Buffer.size_tabulate _ _⟩, rfl⟩
  have hone : one.HasShape 1 1 0 := ⟨rfl, ⟨rfl, Buffer.size_tabulate _ _⟩, rfl⟩
  have hfirst : drifted.store.diagonal 0 = 1 / 2 :=
    congrArg Amplitude.re (Buffer.entry_tabulate_of_lt _ (by decide))
  have hdiagonal : forall x, x < 2 -> one.store.diagonal x = if x = 1 then 1 else 0 := by
    intro x hx
    have hread : forall y, y < 4 -> (one.store.data.entry y).re = if y = 3 then 1 else 0 :=
      fun y hy => congrArg Amplitude.re (Buffer.entry_tabulate_of_lt _ hy)
    rcases (by omega : x = 0 ∨ x = 1) with rfl | rfl
    · exact hread 0 (by decide)
    · exact hread 3 (by decide)
  constructor
  · rcases (sample_selects_possible hdrifted (by decide)
      ⟨0, by decide, by rw [hfirst]; norm_num⟩).1 [7 / 16] (by norm_num) with
      ⟨places, hplaces, hselects⟩
    cases hselects with
    | cons hselect hrest =>
        cases hrest
        exact ⟨_, hplaces, hselect.possible⟩
  · rcases (sample_selects_possible hone (by decide)
      ⟨1, by decide, by rw [hdiagonal 1 (by decide)]; norm_num⟩).2 (by
        intro x hx
        rw [hdiagonal x hx]
        split
        · exact zero_le_one
        · exact le_refl 0) [0] 3 (.ofSeed 7) (by decide) (by decide) (by decide) with
      ⟨outcomes, weights, hsample, _, hweights, hpossible⟩
    exact ⟨outcomes, weights, hsample, hweights, hpossible⟩

end Register

end MixedState
