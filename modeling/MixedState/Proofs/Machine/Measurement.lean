import MixedState.Proofs.Exact
import MixedState.Machine.Measurement
import MixedState.Proofs.Classical.Register
import MixedState.Proofs.Machine.Operators
import MixedState.Proofs.Random.Draw

/-!
# Measurement

The probability of an outcome is the sum of the diagonal entries that spell it.  A
measurement keeps the entries whose row and column both spell what was drawn and
divides them by its probability, so that the outcome is certain from then on.
-/

namespace MixedState

open MixedState.Basis

/-!
## Probabilities
-/

noncomputable def Store.marginal (s : Store ℝ) (qs : List Nat) (outcome : Nat) : ℝ :=
  ∑ x ∈ Finset.range (twoPow s.qubits),
    if gather qs x = outcome then (s.data.entry (cell s.qubits x x)).re else 0

theorem Store.marginal_range {s : Store ℝ} {outcome : Nat} (hlt : outcome < twoPow s.qubits) :
    s.marginal (List.range s.qubits) outcome =
      (s.data.entry (cell s.qubits outcome outcome)).re := by
  unfold marginal
  rw [← sum_range_single hlt fun x => (s.data.entry (cell s.qubits x x)).re]
  apply Finset.sum_congr rfl
  intro x hx
  rw [gather_range (Finset.mem_range.mp hx)]

theorem Store.probabilities_eq_ok_iff {R : Type} [Scalar R] {s : Store R} {weights : List R} :
    s.probabilities = .ok weights ↔
      (s.qubits < wordBits ∧ twoPow s.qubits * twoPow s.qubits ≤ s.data.size) ∧
        weights = (List.range (twoPow s.qubits)).map fun x =>
          (s.data.entry (cell s.qubits x x)).re := by
  have hcell : forall x, x * (twoPow s.qubits + 1) = cell s.qubits x x := by
    intro x
    unfold cell
    ring
  simp only [← hcell]
  unfold probabilities dim
  constructor
  · intro h
    rcases bind_eq_ok_iff.mp h with ⟨dim, hdim, h⟩
    rcases checkedShift_eq_ok_iff.mp hdim with ⟨hn, rfl⟩
    rcases bind_eq_ok_iff.mp h with ⟨_, hsize, h⟩
    cases h
    exact ⟨⟨hn, of_decide_eq_true (orCrash_eq_ok_iff.mp hsize)⟩, rfl⟩
  · rintro ⟨⟨hn, hsize⟩, rfl⟩
    rw [checkedShift_of_lt hn, ok_bind, orCrash_of_true (decide_eq_true hsize)]
    rfl

namespace Machine

theorem outcomeWeight_eq_sum (qs : List Nat) (n : Nat) (f : Nat -> ℝ) (outcome : Nat) :
    outcomeWeight qs ((List.range n).map f) outcome =
      ∑ x ∈ Finset.range n, if gather qs x = outcome then f x else 0 := by
  unfold outcomeWeight
  induction n with
  | zero =>
      simp
  | succ n ih =>
      rw [List.range_succ, List.map_append, List.zipIdx_append, List.filter_append,
        List.foldl_append, ih, Finset.sum_range_succ]
      by_cases hspell : gather qs n = outcome
      · simp [hspell]
      · simp [hspell]

variable {m m' : Machine ℝ} {qs : List Nat}

theorem requireWhole_of_whole {name : String} (hwhole : m.width = m.store.qubits) :
    m.requireWhole name = .ok () := by
  have hsplit : m.isSplit = false :=
    decide_eq_false (by change ¬m.store.qubits < m.width; omega)
  unfold requireWhole
  rw [hsplit]
  rfl

theorem outcomeProbabilities_eq_ok_iff {weights : List ℝ} (hwhole : m.width = m.store.qubits)
    (hqs : forall q, q ∈ qs -> q < m.width) :
    m.outcomeProbabilities qs = .ok weights ↔
      (m.store.qubits < wordBits ∧
        twoPow m.store.qubits * twoPow m.store.qubits ≤ m.store.data.size ∧
        (qs.length < 60 ∨ m.isWholeRegister qs = true)) ∧
      weights = (List.range (twoPow qs.length)).map (m.store.marginal qs) := by
  unfold outcomeProbabilities
  rw [requireWhole_of_whole hwhole, ok_bind, bind_eq_ok_iff]
  by_cases hall : m.isWholeRegister qs = true
  · have hrange : qs = List.range m.store.qubits := by
      rw [← hwhole]
      exact eq_of_beq hall
    have hlen : qs.length = m.store.qubits := by
      rw [hrange, List.length_range]
    have hmarginal : (List.range (twoPow m.store.qubits)).map (m.store.marginal qs) =
        (List.range (twoPow m.store.qubits)).map fun x =>
          (m.store.data.entry (cell m.store.qubits x x)).re := by
      rw [hrange]
      exact List.map_congr_left fun o ho => Store.marginal_range (List.mem_range.mp ho)
    rw [hlen, hmarginal]
    constructor
    · rintro ⟨diagonal, hdiagonal, h⟩
      rw [if_pos hall] at h
      cases h
      rcases Store.probabilities_eq_ok_iff.mp hdiagonal with ⟨⟨hn, hsize⟩, hweights⟩
      exact ⟨⟨hn, hsize, Or.inr hall⟩, hweights⟩
    · rintro ⟨⟨hn, hsize, _⟩, hweights⟩
      refine ⟨weights, Store.probabilities_eq_ok_iff.mpr ⟨⟨hn, hsize⟩, hweights⟩, ?_⟩
      rw [if_pos hall]
      rfl
  · constructor
    · rintro ⟨diagonal, hdiagonal, h⟩
      rcases Store.probabilities_eq_ok_iff.mp hdiagonal with ⟨⟨hn, hsize⟩, rfl⟩
      rw [if_neg hall] at h
      rcases bind_eq_ok_iff.mp h with ⟨count, hcount, h⟩
      rcases checkedShift_eq_ok_iff.mp hcount with ⟨_, rfl⟩
      rcases bind_eq_ok_iff.mp h with ⟨_, hroom, h⟩
      rcases bind_eq_ok_iff.mp h with ⟨_, _, h⟩
      cases h
      have hlen := twoPow_mul_eight_lt_iff.mp (allocate_eq_ok_iff.mp hroom)
      refine ⟨⟨hn, hsize, Or.inl hlen⟩, List.map_congr_left fun o _ => ?_⟩
      exact outcomeWeight_eq_sum qs _ _ o
    · rintro ⟨⟨hn, hsize, hshort⟩, rfl⟩
      have hlen : qs.length < 60 := hshort.resolve_right hall
      have hbits : wordBits = 64 := rfl
      refine ⟨_, Store.probabilities_eq_ok_iff.mpr ⟨⟨hn, hsize⟩, rfl⟩, ?_⟩
      have hword : forall q, q ∈ qs -> q < wordBits := fun q hq =>
        Nat.lt_trans (hqs q hq) (hwhole ▸ hn)
      rw [if_neg hall, checkedShift_of_lt (by omega), ok_bind, allocate_eight_of_lt hlen, ok_bind,
        addressable_eq_ok_iff.mpr hword, ok_bind]
      exact congrArg Except.ok (List.map_congr_left fun o _ => outcomeWeight_eq_sum qs _ _ o)

/-!
## Projection
-/

noncomputable def collapsedEntry (m : Machine ℝ) (qs : List Nat) (outcome : Nat) (p : ℝ)
    (x : Nat) : Amplitude ℝ :=
  if gather qs x = outcome ∧ gather (sideBits true m.store.qubits qs) x = outcome then
    Amplitude.ofReal p⁻¹ * m.store.data.entry x
  else 0

theorem ofReal_inverse_sqrt_mul_self {p : ℝ} (hp : 0 < p) :
    Amplitude.ofReal (1 / Scalar.sqrt p) * Amplitude.ofReal (1 / Scalar.sqrt p) =
      Amplitude.ofReal p⁻¹ := by
  have hroot : (1 / Real.sqrt p) * (1 / Real.sqrt p) = p⁻¹ := by
    rw [div_mul_div_comm, one_mul, Real.mul_self_sqrt (le_of_lt hp), one_div]
  ext
  · change 1 / Real.sqrt p * (1 / Real.sqrt p) - 0 * 0 = p⁻¹
    rw [hroot, mul_zero, sub_zero]
  · change 1 / Real.sqrt p * 0 + 0 * (1 / Real.sqrt p) = 0
    rw [mul_zero, zero_mul, add_zero]

noncomputable def projector (k outcome : Nat) (p : ℝ) : Buffer ℝ :=
  Buffer.tabulate (twoPow k) fun i =>
    if i = outcome then Amplitude.ofReal (1 / Scalar.sqrt p) else 0

theorem size_projector (k outcome : Nat) (p : ℝ) : (projector k outcome p).size = twoPow k :=
  Buffer.size_tabulate _ _

theorem project_eq_applyDiagonal {outcome : Nat} {p : ℝ} (hlen : qs.length < 59)
    (houtcome : outcome < twoPow qs.length) :
    m.project qs outcome p = m.applyDiagonal qs (projector qs.length outcome p) := by
  have hbits : wordBits = 64 := rfl
  unfold project
  rw [checkedShift_of_lt (by omega), ok_bind, allocate_sixteen_of_lt hlen, ok_bind,
    orCrash_of_true (decide_eq_true houtcome), ok_bind]
  rfl

theorem entry_tensor_projector {n outcome : Nat} {p : ℝ} (hp : 0 < p) (qs : List Nat) (x : Nat) :
    ((projector qs.length outcome p).conj.tensor (projector qs.length outcome p)).entry
        (gather (bothSides n qs) x) =
      if gather qs x = outcome ∧ gather (sideBits true n qs) x = outcome then
        Amplitude.ofReal p⁻¹
      else 0 := by
  have hrow := gather_lt qs x
  have hcolumn := gather_lt (sideBits true n qs) x
  rw [length_sideBits] at hcolumn
  unfold bothSides
  rw [Buffer.entry_tensor_gather (size_projector _ _ _)
      (by rw [Buffer.size_conj, size_projector, length_sideBits]), Buffer.entry_conj]
  unfold projector
  rw [Buffer.entry_tabulate_of_lt _ hrow, Buffer.entry_tabulate_of_lt _ hcolumn]
  by_cases hr : gather qs x = outcome
  · by_cases hc : gather (sideBits true n qs) x = outcome
    · rw [if_pos hr, if_pos hc, if_pos ⟨hr, hc⟩, Amplitude.conj_ofReal,
        ofReal_inverse_sqrt_mul_self hp]
    · rw [if_neg hc, Amplitude.conj_zero, zero_mul, if_neg fun h => hc h.2]
  · rw [if_neg hr, mul_zero, if_neg fun h => hr h.1]

theorem tabulate_projector {outcome : Nat} {p : ℝ} (hp : 0 < p) (m : Machine ℝ) (qs : List Nat) :
    (Buffer.tabulate m.store.data.size fun x => m.store.data.entry x *
        ((projector qs.length outcome p).conj.tensor (projector qs.length outcome p)).entry
          (gather (bothSides m.store.qubits qs) x)) =
      Buffer.tabulate m.store.data.size (m.collapsedEntry qs outcome p) := by
  apply Buffer.tabulate_congr
  intro x _
  unfold collapsedEntry
  rw [entry_tensor_projector hp, mul_ite, mul_zero, mul_comm]

theorem gather_lt_projector (n outcome : Nat) (p : ℝ) (qs : List Nat) (x : Nat) :
    gather (bothSides n qs) x <
      ((projector qs.length outcome p).conj.tensor (projector qs.length outcome p)).size := by
  have hlt := gather_lt (bothSides n qs) x
  rw [length_bothSides, twoPow_two_mul] at hlt
  rw [Buffer.size_tensor, Buffer.size_conj, size_projector]
  exact hlt

theorem project_eq_ok_iff {outcome : Nat} {p : ℝ} (hwhole : m.width = m.store.qubits)
    (hn : m.store.qubits < wordBits) (hqs : forall q, q ∈ qs -> q < m.width) (hp : 0 < p) :
    m.project qs outcome p = .ok m' ↔
      (qs.length < 59 ∧ outcome < twoPow qs.length ∧
        (m.store.data.size = 0 ∨
          (forall q, q ∈ bothSides m.store.qubits qs -> q < wordBits) ∧
            2 * qs.length ≤ wordBits)) ∧
      m' = m.withData
        (Buffer.tabulate m.store.data.size (m.collapsedEntry qs outcome p)) := by
  have hreach : m.Reaches qs := Or.inr fun q hq => hwhole ▸ hqs q hq
  have hword : forall q, q ∈ qs -> q < wordBits := fun q hq =>
    Nat.lt_trans (hqs q hq) (hwhole ▸ hn)
  constructor
  · intro h
    unfold project at h
    rcases bind_eq_ok_iff.mp h with ⟨dim, hdim, h⟩
    rcases checkedShift_eq_ok_iff.mp hdim with ⟨hlen, rfl⟩
    rcases bind_eq_ok_iff.mp h with ⟨_, hfew, h⟩
    rcases bind_eq_ok_iff.mp h with ⟨_, hlt, h⟩
    change m.applyDiagonal qs (projector qs.length outcome p) = .ok m' at h
    rw [applyDiagonal_of_reaches hreach hn hword hlen (size_projector _ _ _)] at h
    rcases onData_eq_ok_iff.mp h with ⟨b, hb, rfl⟩
    rcases Kernel.diagonal_eq_ok_iff.mp hb with ⟨hroom, rfl⟩
    refine ⟨⟨twoPow_mul_sixteen_lt_iff.mp (allocate_eq_ok_iff.mp hfew),
      of_decide_eq_true (orCrash_eq_ok_iff.mp hlt), hroom.imp_right ?_⟩,
      congrArg m.withData (tabulate_projector hp m qs)⟩
    rintro ⟨hbits, hboth, _⟩
    rw [length_bothSides] at hboth
    exact ⟨hbits, hboth⟩
  · rintro ⟨⟨hlen, hlt, hroom⟩, rfl⟩
    have hbits : wordBits = 64 := rfl
    rw [project_eq_applyDiagonal hlen hlt,
      applyDiagonal_of_reaches hreach hn hword (by omega) (size_projector _ _ _)]
    apply onData_of_eq_ok
    rw [← tabulate_projector hp m qs]
    refine Kernel.diagonal_eq_ok_iff.mpr ⟨hroom.imp_right ?_, rfl⟩
    rintro ⟨hbits, hboth⟩
    rw [length_bothSides]
    exact ⟨hbits, hboth, fun x _ => gather_lt_projector _ _ _ _ x⟩

/-!
## The state that is left
-/

variable {outcome : Nat} {p : ℝ}

noncomputable def collapsed (m : Machine ℝ) (qs : List Nat) (outcome : Nat) (p : ℝ) :
    Machine ℝ :=
  m.withData (Buffer.tabulate m.store.data.size (m.collapsedEntry qs outcome p))

theorem entry_collapsed (hqs : forall q, q ∈ qs -> q < m.store.qubits)
    (hsize : twoPow m.store.qubits * twoPow m.store.qubits ≤ m.store.data.size) {r c : Nat}
    (hr : r < twoPow m.store.qubits) (hc : c < twoPow m.store.qubits) :
    (m.collapsed qs outcome p).store.data.entry (cell m.store.qubits r c) =
      if gather qs r = outcome ∧ gather qs c = outcome then
        Amplitude.ofReal p⁻¹ * m.store.data.entry (cell m.store.qubits r c)
      else 0 := by
  have hcell := cell_lt hr hc
  rw [twoPow_two_mul] at hcell
  have hrows : gather (sideBits false m.store.qubits qs) (cell m.store.qubits r c) =
      gather qs r := gather_sideBits_cell hqs hr hc
  have hcolumns : gather (sideBits true m.store.qubits qs) (cell m.store.qubits r c) =
      gather qs c := gather_sideBits_cell hqs hr hc
  rw [sideBits_false] at hrows
  change (Buffer.tabulate _ _).entry _ = _
  rw [Buffer.entry_tabulate_of_lt _ (Nat.lt_of_lt_of_le hcell hsize)]
  unfold collapsedEntry
  rw [hrows, hcolumns]

theorem marginal_collapsed (hqs : forall q, q ∈ qs -> q < m.store.qubits)
    (hsize : twoPow m.store.qubits * twoPow m.store.qubits ≤ m.store.data.size) (i : Nat) :
    (m.collapsed qs outcome p).store.marginal qs i =
      if i = outcome then p⁻¹ * m.store.marginal qs outcome else 0 := by
  have hterm : forall x, x ∈ Finset.range (twoPow m.store.qubits) ->
      (if gather qs x = i then
        ((m.collapsed qs outcome p).store.data.entry (cell m.store.qubits x x)).re else 0) =
      if i = outcome then
        p⁻¹ * (if gather qs x = outcome then
          (m.store.data.entry (cell m.store.qubits x x)).re else 0)
      else 0 := by
    intro x hx
    have hlt := Finset.mem_range.mp hx
    rw [entry_collapsed hqs hsize hlt hlt]
    by_cases hi : i = outcome
    · by_cases hspell : gather qs x = outcome
      · simp [hi, hspell]
      · simp [hi, hspell]
    · by_cases hspell : gather qs x = i
      · simp [hi, hspell]
      · simp [hi, hspell]
  unfold Store.marginal
  refine (Finset.sum_congr rfl hterm).trans ?_
  by_cases hi : i = outcome
  · simp only [if_pos hi, Finset.mul_sum]
  · simp only [if_neg hi, Finset.sum_const_zero]

theorem collapsed_collapsed :
    (m.collapsed qs outcome p).collapsed qs outcome 1 = m.collapsed qs outcome p := by
  have hone : (Amplitude.ofReal (1 : ℝ)⁻¹ : Amplitude ℝ) = 1 := by
    rw [inv_one]
    rfl
  have hdata : Buffer.tabulate (m.collapsed qs outcome p).store.data.size
      ((m.collapsed qs outcome p).collapsedEntry qs outcome 1) =
      Buffer.tabulate m.store.data.size (m.collapsedEntry qs outcome p) := by
    change Buffer.tabulate (Buffer.tabulate _ _).size _ = _
    rw [Buffer.size_tabulate]
    apply Buffer.tabulate_congr
    intro x hx
    have hentry : (m.collapsed qs outcome p).store.data.entry x =
        m.collapsedEntry qs outcome p x := Buffer.entry_tabulate_of_lt _ hx
    change (if _ ∧ gather (sideBits true m.store.qubits qs) x = outcome then _ else 0) = _
    rw [hentry, hone, one_mul]
    unfold collapsedEntry
    split
    · rfl
    · rfl
  exact congrArg m.withData hdata

/-!
## Drawing, projecting and recording
-/

variable {memory registers : List Nat} {source source' : Source}

theorem measure_eq_ok_iff :
    m.measure qs memory registers source = .ok (m', source') ↔
      exists weights outcome projected classical,
        m.outcomeProbabilities qs = .ok weights ∧
        source.choose weights = .ok (outcome, source') ∧
        m.project qs outcome (weights.getD outcome 0) = .ok projected ∧
        projected.classical.record outcome memory registers = .ok classical ∧
        m' = { projected with classical := classical } := by
  unfold measure drawOutcome
  constructor
  · intro h
    rcases bind_eq_ok_iff.mp h with ⟨⟨⟨outcome, p⟩, drawn⟩, hdraw, h⟩
    rcases bind_eq_ok_iff.mp hdraw with ⟨weights, hweights, hdraw⟩
    rcases bind_eq_ok_iff.mp hdraw with ⟨⟨chosen, after⟩, hchoose, hdraw⟩
    cases hdraw
    rcases bind_eq_ok_iff.mp h with ⟨projected, hproject, h⟩
    rcases bind_eq_ok_iff.mp h with ⟨classical, hrecord, h⟩
    cases h
    exact ⟨weights, outcome, projected, classical, hweights, hchoose, hproject, hrecord, rfl⟩
  · rintro ⟨weights, outcome, projected, classical, hweights, hchoose, hproject, hrecord, rfl⟩
    rw [hweights, ok_bind, hchoose, ok_bind]
    change (m.project qs outcome (weights.getD outcome 0) >>= _) = _
    rw [hproject, ok_bind, hrecord]
    rfl

noncomputable def certainty (k outcome : Nat) : List ℝ :=
  (List.range (twoPow k)).map fun i => if i = outcome then 1 else 0

theorem getD_map_range {α : Type} {d : α} {n i : Nat} (f : Nat -> α) (hi : i < n) :
    ((List.range n).map f).getD i d = f i := by
  simp [List.getD_eq_getElem?_getD, hi]

structure Measurable (m : Machine ℝ) (qs : List Nat) (outcome : Nat) : Prop where
  whole : m.width = m.store.qubits
  inside : forall q, q ∈ qs -> q < m.width
  word : m.store.qubits < wordBits
  full : twoPow m.store.qubits * twoPow m.store.qubits ≤ m.store.data.size
  short : qs.length < 59
  spelled : outcome < twoPow qs.length
  room : m.store.data.size = 0 ∨
    (forall q, q ∈ bothSides m.store.qubits qs -> q < wordBits) ∧ 2 * qs.length ≤ wordBits

namespace Measurable

theorem collapsed (h : m.Measurable qs outcome) :
    (m.collapsed qs outcome p).Measurable qs outcome := by
  have hsize : (m.collapsed qs outcome p).store.data.size = m.store.data.size :=
    Buffer.size_tabulate _ _
  exact ⟨h.whole, h.inside, h.word, hsize ▸ h.full, h.short, h.spelled, hsize ▸ h.room⟩

theorem probabilities (h : m.Measurable qs outcome) :
    m.outcomeProbabilities qs =
      .ok ((List.range (twoPow qs.length)).map (m.store.marginal qs)) :=
  (outcomeProbabilities_eq_ok_iff h.whole h.inside).mpr
    ⟨⟨h.word, h.full, Or.inl (Nat.lt_succ_of_lt h.short)⟩, rfl⟩

theorem probabilities_collapsed (h : m.Measurable qs outcome)
    (hp : m.store.marginal qs outcome = p) (hpos : 0 < p) :
    (m.collapsed qs outcome p).outcomeProbabilities qs = .ok (certainty qs.length outcome) := by
  rw [h.collapsed.probabilities]
  refine congrArg Except.ok (List.map_congr_left fun i _ => ?_)
  rw [marginal_collapsed (h.whole ▸ h.inside) h.full, hp, inv_mul_cancel₀ (ne_of_gt hpos)]

theorem measure_of_single (h : m.Measurable qs outcome)
    (hp : m.store.marginal qs outcome = p) (hpos : 0 < p)
    (hother : forall i, i ≠ outcome -> m.store.marginal qs i ≤ 0) (memory registers : List Nat)
    (source : Source) :
    m.measure qs memory registers source =
      (m.classical.record outcome memory registers).bind fun classical =>
        .ok ({ m.collapsed qs outcome p with classical := classical }, source.advance) := by
  have hdrawn : ((List.range (twoPow qs.length)).map (m.store.marginal qs)).getD outcome 0 = p := by
    rw [getD_map_range _ h.spelled, hp]
  have hrest : forall i, i ≠ outcome ->
      ((List.range (twoPow qs.length)).map (m.store.marginal qs)).getD i 0 ≤ 0 := by
    intro i hi
    by_cases hlt : i < twoPow qs.length
    · rw [getD_map_range _ hlt]
      exact hother i hi
    · simp [List.getD_eq_getElem?_getD, hlt]
  have hproject : m.project qs outcome p = .ok (m.collapsed qs outcome p) :=
    (project_eq_ok_iff h.whole h.word h.inside hpos).mpr ⟨⟨h.short, h.spelled, h.room⟩, rfl⟩
  unfold measure drawOutcome
  rw [h.probabilities, ok_bind, choose_of_single source (by rw [hdrawn]; exact hpos) hrest, ok_bind]
  change (m.project qs outcome
    (((List.range (twoPow qs.length)).map (m.store.marginal qs)).getD outcome 0) >>= _) = _
  rw [hdrawn, hproject, ok_bind]
  rfl

theorem measure_collapsed (h : m.Measurable qs outcome)
    (hp : m.store.marginal qs outcome = p) (hpos : 0 < p) (memory registers : List Nat)
    (source : Source) :
    (m.collapsed qs outcome p).measure qs memory registers source =
      (m.classical.record outcome memory registers).bind fun classical =>
        .ok ({ m.collapsed qs outcome p with classical := classical }, source.advance) := by
  have hlocal : forall q, q ∈ qs -> q < m.store.qubits := h.whole ▸ h.inside
  have hone : (m.collapsed qs outcome p).store.marginal qs outcome = 1 := by
    rw [marginal_collapsed hlocal h.full, if_pos rfl, hp, inv_mul_cancel₀ (ne_of_gt hpos)]
  have hother : forall i, i ≠ outcome -> (m.collapsed qs outcome p).store.marginal qs i ≤ 0 := by
    intro i hi
    rw [marginal_collapsed hlocal h.full, if_neg hi]
  rw [h.collapsed.measure_of_single hone one_pos hother, collapsed_collapsed]
  rfl

end Measurable

/-- A machine on which an outcome of probability `p` was measured. -/
structure Collapse (m m' : Machine ℝ) (qs : List Nat) (outcome : Nat) (p : ℝ) : Prop where
  frame : m' = { m.withData m'.store.data with classical := m'.classical }
  entry : forall r c, r < twoPow m.store.qubits -> c < twoPow m.store.qubits ->
    m'.store.data.entry (cell m.store.qubits r c) =
      if gather qs r = outcome ∧ gather qs c = outcome then
        Amplitude.ofReal p⁻¹ * m.store.data.entry (cell m.store.qubits r c)
      else 0
  certain : m'.outcomeProbabilities qs = .ok (certainty qs.length outcome)
  /-- A later measurement records the same outcome, wherever to, and keeps the store. -/
  repeats : forall memory registers source,
    m'.measure qs memory registers source =
      (m'.classical.record outcome memory registers).bind fun classical =>
        .ok ({ m' with classical := classical }, source.advance)

/-- A measurement of the whole register draws an outcome that has a positive probability,
collapses the state onto it, and writes its bits to the slots. -/
theorem measure_collapses (hwhole : m.width = m.store.qubits)
    (hqs : forall q, q ∈ qs -> q < m.width) (hmemory : memory.Nodup)
    (hregisters : registers.Nodup)
    (h : m.measure qs memory registers source = .ok (m', source')) :
    exists outcome p weights,
      m.outcomeProbabilities qs = .ok weights ∧ weights[outcome]? = some p ∧
      outcome < twoPow qs.length ∧ 0 < p ∧ m.Collapse m' qs outcome p ∧
      (forall i slot, memory[i]? = some slot ->
        Hex.bitAt m'.classical.memory slot = outcome.testBit i) ∧
      (forall i slot, registers[i]? = some slot ->
        Hex.bitAt m'.classical.register slot = outcome.testBit i) ∧
      forall other, m'.measure qs memory registers other = .ok (m', other.advance) := by
  rcases measure_eq_ok_iff.mp h with
    ⟨weights, outcome, projected, classical, hweights, hchoose, hproject, hrecord, rfl⟩
  rcases (outcomeProbabilities_eq_ok_iff hwhole hqs).mp hweights with
    ⟨⟨hn, hfull, _⟩, hmarginals⟩
  rcases pos_of_choose_eq_ok hchoose with ⟨hdrawn, hpos, _⟩
  have hlt : outcome < twoPow qs.length := by
    rw [hmarginals, List.length_map, List.length_range] at hdrawn
    exact hdrawn
  have hp : m.store.marginal qs outcome = weights.getD outcome 0 := by
    rw [hmarginals, getD_map_range _ hlt]
  rcases (project_eq_ok_iff hwhole hn hqs hpos).mp hproject with ⟨⟨hlen, _, hroom⟩, rfl⟩
  -- The projected machine is the one of the new classical bits, projected.
  have hmeasurable : Measurable { m with classical := classical } qs outcome :=
    ⟨hwhole, hqs, hn, hfull, hlen, hlt, hroom⟩
  have hsame : ({ m.withData (Buffer.tabulate m.store.data.size
        (m.collapsedEntry qs outcome (weights.getD outcome 0))) with classical := classical } :
          Machine ℝ) =
      ({ m with classical := classical } : Machine ℝ).collapsed qs outcome
        (weights.getD outcome 0) := rfl
  have hrepeats := hmeasurable.measure_collapsed hp hpos
  rcases Classical.record_eq_ok_iff.mp hrecord with ⟨hbits, hbits'⟩
  rw [hsame]
  refine ⟨outcome, weights.getD outcome 0, weights, hweights, ?_, hlt, hpos,
    ⟨rfl, fun r c hr hc => entry_collapsed (hwhole ▸ hqs) hfull hr hc,
      hmeasurable.probabilities_collapsed hp hpos, hrepeats⟩, ?_, ?_, ?_⟩
  · rw [List.getD_eq_getElem?_getD, List.getElem?_eq_getElem hdrawn]
    rfl
  · intro i slot hslot
    have hbit := (Classical.bitAt_writeBits hbits hmemory hslot).2
    rw [Nat.zero_add] at hbit
    exact hbit
  · intro i slot hslot
    have hbit := (Classical.bitAt_writeBits hbits' hregisters hslot).2
    rw [Nat.zero_add] at hbit
    exact hbit
  · intro other
    have hagain : classical.record outcome memory registers = .ok classical :=
      Classical.record_again hrecord hmemory hregisters
    rw [hrepeats memory registers other]
    change (classical.record outcome memory registers).bind _ = _
    rw [hagain]
    rfl

theorem measure_collapses_one :
    exists m', (ofStore ⟨1, 0, #[0, 0, 0, 1]⟩ : Machine ℝ).measure [0] [2] [] (.ofSeed 7)
        = .ok (m', (Source.ofSeed 7).advance) ∧
      exists outcome p, 0 < p ∧ (ofStore ⟨1, 0, #[0, 0, 0, 1]⟩).Collapse m' [0] outcome p ∧
        Hex.bitAt m'.classical.memory 2 = outcome.testBit 0 := by
  have hmarginal : forall i, (ofStore ⟨1, 0, #[0, 0, 0, 1]⟩ : Machine ℝ).store.marginal [0] i =
      if i = 1 then 1 else 0 := by
    intro i
    change ∑ x ∈ Finset.range 2, _ = _
    rw [Finset.sum_range_succ, Finset.sum_range_one]
    simp [cell, Buffer.entry, ofStore, twoPow, eq_comm]
  have hmeasurable : (ofStore ⟨1, 0, #[0, 0, 0, 1]⟩ : Machine ℝ).Measurable [0] 1 :=
    ⟨rfl, by decide, by decide, by change 2 * 2 ≤ 4; decide, by decide, by decide,
      Or.inr ⟨by change forall q, q ∈ [0, 0 + 1] -> q < 64; decide, by decide⟩⟩
  have hrun : (ofStore ⟨1, 0, #[0, 0, 0, 1]⟩ : Machine ℝ).measure [0] [2] [] (.ofSeed 7) =
      .ok ({ (ofStore ⟨1, 0, #[0, 0, 0, 1]⟩ : Machine ℝ).collapsed [0] 1 1 with
        classical := ⟨[false, false, true], []⟩ }, (Source.ofSeed 7).advance) := by
    rw [hmeasurable.measure_of_single (hmarginal 1) one_pos]
    · rfl
    · intro i hi
      rw [hmarginal, if_neg hi]
  rcases measure_collapses rfl (by decide) (by decide) (by decide) hrun with
    ⟨outcome, p, weights, _, _, _, hpos, hcollapse, hmemory, _, _⟩
  exact ⟨_, hrun, outcome, p, hpos, hcollapse, hmemory 0 2 rfl⟩

end Machine

end MixedState
