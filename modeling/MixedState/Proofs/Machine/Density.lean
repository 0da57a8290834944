import MixedState.Proofs.Exact
import MixedState.Proofs.Machine.Local
import MixedState.Proofs.Machine.Measurement

/-!
# Operators of a machine keep density matrices

A machine that holds the density matrix of its whole register holds one after a gate, a
unitary, a diagonal of phases, a complete channel or a reset.
-/

namespace MixedState

structure Store.IsDensity (n : Nat) (s : Store ℝ) : Prop where
  qubits : s.qubits = n
  data : s.data.IsDensity n

structure Machine.IsDensity (n : Nat) (m : Machine ℝ) : Prop where
  width : m.width = n
  store : m.store.IsDensity n

/-!
## Vectors and matrices
-/

namespace Buffer

variable {n : Nat} {psi : Buffer ℝ} {r c : Nat}

theorem size_outer (hsize : psi.size = twoPow n) : psi.outer.size = twoPow (2 * n) := by
  unfold outer
  rw [size_tabulate, hsize, twoPow_two_mul]

theorem toEntries_outer (hsize : psi.size = twoPow n) (hr : r < twoPow n) (hc : c < twoPow n) :
    psi.outer.toEntries n r c = psi.entry r * (psi.entry c).conj := by
  unfold outer
  rw [hsize, ← twoPow_two_mul, toEntries_tabulate _ hr hc]
  unfold Basis.cell
  rw [Nat.mul_comm c, add_mul_mod hr, add_mul_div hr]

theorem outer_isDensity (hsize : psi.size = twoPow n)
    (hunit : ∑ i ∈ Finset.range psi.size, psi.entry i * (psi.entry i).conj = 1) :
    psi.outer.IsDensity n := by
  rw [hsize] at hunit
  exact ⟨size_outer hsize, (isDensity_outer hunit).congr fun _ _ hr hc =>
    toEntries_outer hsize hr hc⟩

end Buffer

namespace Mat

variable {n : Nat} {u : Mat ℝ} {r c : Nat}

theorem toEntries_columns (hrows : u.rows = twoPow n) (hcols : u.cols = twoPow n)
    (hr : r < twoPow n) (hc : c < twoPow n) : u.columns.toEntries n r c = u.entry r c := by
  have hentry := entry_columns (u := u) (hrows ▸ hr) (hcols ▸ hc)
  rw [hrows, Nat.mul_comm] at hentry
  exact hentry

theorem columns_isDensity (hrows : u.rows = twoPow n) (hcols : u.cols = twoPow n)
    (hu : MixedState.IsDensity u.rows u.entry) : u.columns.IsDensity n := by
  rw [hrows] at hu
  exact ⟨by rw [size_columns, hrows, hcols, twoPow_two_mul], hu.congr fun _ _ hr hc =>
    toEntries_columns hrows hcols hr hc⟩

end Mat

/-!
## Operators
-/

namespace Machine.IsDensity

open MixedState.Basis

variable {n : Nat} {m m' : Machine ℝ} {qs : List Nat} {op : Instruction ℝ}

theorem register (h : m.IsDensity n) : m.IsRegister n :=
  ⟨h.width, h.store.qubits, Or.inl h.store.data.full⟩

theorem withData (h : m.IsDensity n) {b : Buffer ℝ} (hb : b.IsDensity n) :
    (m.withData b).IsDensity n where
  width := h.width
  store := ⟨h.store.qubits, hb⟩

theorem withClassical (h : m.IsDensity n) (c : Classical) :
    Machine.IsDensity n { m with classical := c } where
  width := h.width
  store := h.store

theorem transformed (h : m.IsDensity n) (hnodup : qs.Nodup) (hqs : forall q, q ∈ qs -> q < n)
    {u : Entries} (hu : Kernel.IsChannel (twoPow qs.length) u) :
    (m.transformed qs u).IsDensity n := by
  rcases hu with ⟨ks, hsuperop, hcomplete⟩
  have hacts : Kernel.ActsAs n qs u fun b => .ok (Buffer.tabulate (twoPow (2 * n))
      (act (bothSides n qs) u b.entry)) :=
    fun _ _ => rfl
  rcases hacts.keeps hnodup hqs hsuperop hcomplete m.store.data h.store.data with ⟨b, hb, hdensity⟩
  cases hb
  unfold Machine.transformed
  rw [h.width, h.store.data.full]
  exact h.withData hdensity

theorem ofLocal (h : m.IsDensity n) (hn : 4 * n < wordBits) (hnodup : qs.Nodup)
    (hqs : forall q, q ∈ qs -> q < n) {physical : Prop}
    {f : Machine ℝ -> List Nat -> Outcome (Machine ℝ)}
    (hlocal : IsLocal qs.length physical f) (hphysical : physical)
    (hstep : f m qs = .ok m') : m'.IsDensity n := by
  rcases hlocal with ⟨u, hchannel, hu⟩
  rw [hu n m qs ⟨h.register, hn, hnodup, hqs⟩ rfl] at hstep
  cases u with
  | error fault =>
      cases hstep
  | ok v =>
      cases hstep
      exact h.transformed hnodup hqs (hchannel hphysical v rfl)

/-!
## Measurement
-/

theorem im_entry_eq_zero (h : m.IsDensity n) {x : Nat} (hx : x < twoPow n) :
    (m.store.data.entry (cell n x x)).im = 0 := by
  have hsame := congrArg Amplitude.im (h.store.data.density.hermitian x x hx hx)
  change (m.store.data.entry (cell n x x)).im = -(m.store.data.entry (cell n x x)).im at hsame
  linarith

theorem toEntries_collapsed (h : m.IsDensity n) (hqs : forall q, q ∈ qs -> q < n) {outcome : Nat}
    {p : ℝ} {r c : Nat} (hr : r < twoPow n) (hc : c < twoPow n) :
    (m.collapsed qs outcome p).store.data.toEntries n r c =
      if gather qs r = outcome ∧ gather qs c = outcome then
        Amplitude.ofReal p⁻¹ * m.store.data.toEntries n r c
      else 0 := by
  have hqubits := h.store.qubits
  have hsize : twoPow m.store.qubits * twoPow m.store.qubits ≤ m.store.data.size := by
    rw [hqubits, h.store.data.full, twoPow_two_mul]
  have hentry : (m.collapsed qs outcome p).store.data.entry (cell m.store.qubits r c) = _ :=
    entry_collapsed (by rw [hqubits]; exact hqs) hsize (by rw [hqubits]; exact hr)
      (by rw [hqubits]; exact hc)
  rw [hqubits] at hentry
  exact hentry

theorem isPositive_collapsed (h : m.IsDensity n) (hqs : forall q, q ∈ qs -> q < n)
    {outcome : Nat} {p : ℝ} (hpos : 0 < p) :
    IsPositive (twoPow n) ((m.collapsed qs outcome p).store.data.toEntries n) := by
  have hid : forall x, x < twoPow n -> id x < twoPow n := fun _ hx => hx
  apply (h.store.data.density.toIsPositive.sandwich (monomial id fun x =>
    if gather qs x = outcome then Amplitude.ofReal (1 / Scalar.sqrt p) else 0)).congr
  intro r c hr hc
  rw [h.toEntries_collapsed hqs hr hc, sandwich_monomial hid hr hc, id, id]
  by_cases hrow : gather qs r = outcome
  · by_cases hcolumn : gather qs c = outcome
    · rw [if_pos ⟨hrow, hcolumn⟩, if_pos hrow, if_pos hcolumn, Amplitude.conj_ofReal,
        ← ofReal_inverse_sqrt_mul_self hpos]
      ring
    · rw [if_neg fun hboth => hcolumn hboth.2, if_neg hcolumn, Amplitude.conj_zero, mul_zero]
  · rw [if_neg fun hboth => hrow hboth.1, if_neg hrow, zero_mul, zero_mul]

theorem trace_collapsed (h : m.IsDensity n) (hqs : forall q, q ∈ qs -> q < n) {outcome : Nat}
    {p : ℝ} (hp : m.store.marginal qs outcome = p) (hpos : 0 < p) :
    ∑ x ∈ Finset.range (twoPow n), (m.collapsed qs outcome p).store.data.toEntries n x x = 1 := by
  have hterm : forall x, x ∈ Finset.range (twoPow n) ->
      (m.collapsed qs outcome p).store.data.toEntries n x x =
        Amplitude.ofReal (p⁻¹ * if gather qs x = outcome then
          (m.store.data.entry (cell n x x)).re else 0) := by
    intro x hx
    have hlt := Finset.mem_range.mp hx
    rw [h.toEntries_collapsed hqs hlt hlt]
    have him : (m.store.data.toEntries n x x).im = 0 := h.im_entry_eq_zero hlt
    by_cases hspell : gather qs x = outcome
    · rw [if_pos ⟨hspell, hspell⟩, if_pos hspell]
      ext
      · simp [Buffer.toEntries]
      · simp [him]
    · rw [if_neg fun hboth => hspell hboth.1, if_neg hspell, mul_zero]
      rfl
  unfold Store.marginal at hp
  rw [h.store.qubits] at hp
  rw [Finset.sum_congr rfl hterm]
  ext
  · rw [Amplitude.re_sum]
    simp only [Amplitude.ofReal_re]
    rw [← Finset.mul_sum, hp, inv_mul_cancel₀ (ne_of_gt hpos)]
    rfl
  · rw [Amplitude.im_sum]
    simp

theorem collapsed (h : m.IsDensity n) (hqs : forall q, q ∈ qs -> q < n) {outcome : Nat} {p : ℝ}
    (hp : m.store.marginal qs outcome = p) (hpos : 0 < p) :
    (m.collapsed qs outcome p).IsDensity n :=
  h.withData ⟨by rw [Buffer.size_tabulate]; exact h.store.data.full,
    h.isPositive_collapsed hqs hpos, h.trace_collapsed hqs hp hpos⟩

theorem measure (h : m.IsDensity n) (hn : 4 * n < wordBits)
    (hqs : forall q, q ∈ qs -> q < n) {memory registers : List Nat} {source source' : Source}
    (hstep : m.measure qs memory registers source = .ok (m', source')) : m'.IsDensity n := by
  have hwhole : m.width = m.store.qubits := h.width.trans h.store.qubits.symm
  have hinside : forall q, q ∈ qs -> q < m.width := by
    rw [h.width]
    exact hqs
  rcases measure_eq_ok_iff.mp hstep with
    ⟨weights, outcome, projected, classical, hweights, hchoose, hproject, _, rfl⟩
  rcases (outcomeProbabilities_eq_ok_iff hwhole hinside).mp hweights with ⟨_, hmarginals⟩
  rcases pos_of_choose_eq_ok hchoose with ⟨hdrawn, hpos, _⟩
  have hp : m.store.marginal qs outcome = weights.getD outcome 0 := by
    rw [hmarginals, List.length_map, List.length_range] at hdrawn
    rw [hmarginals, getD_map_range _ hdrawn]
  have hsmall := h.register.qubits_lt hn
  have hprojected := ((project_eq_ok_iff hwhole hsmall hinside hpos).mp hproject).2
  rw [hprojected]
  exact (h.collapsed hqs hp hpos).withClassical classical

/-!
## New states
-/

theorem setVector (h : m.IsDensity n)
    (hunit : ∑ i ∈ Finset.range op.params.size,
      op.params.entry i * (op.params.entry i).conj = 1)
    (hstep : m.setVector op = .ok m') : m'.IsDensity n := by
  unfold Machine.setVector at hstep
  rcases bind_eq_ok_iff.mp hstep with ⟨_, _, hstep⟩
  rcases bind_eq_ok_iff.mp hstep with ⟨dim, hdim, hstep⟩
  rcases checkedShift_eq_ok_iff.mp hdim with ⟨_, rfl⟩
  split at hstep
  · exact absurd hstep refuse_ne_ok
  · next hsize =>
      have hsize' : op.params.size = twoPow n := by
        rw [← h.width]
        exact not_not.mp hsize
      have hstore : op.params.size = twoPow m.store.qubits := by
        rw [h.store.qubits]
        exact hsize'
      rcases bind_eq_ok_iff.mp hstep with ⟨store, hload, hstep⟩
      cases hstep
      unfold Store.loadVector at hload
      rcases bind_eq_ok_iff.mp hload with ⟨dim, hdim, hload⟩
      rcases checkedShift_eq_ok_iff.mp hdim with ⟨_, rfl⟩
      rcases bind_eq_ok_iff.mp hload with ⟨_, _, hload⟩
      rw [if_pos hstore] at hload
      cases hload
      exact h.withData (Buffer.outer_isDensity hsize' hunit)

theorem setMatrix (h : m.IsDensity n) {u : Mat ℝ} {rest : List (Mat ℝ)}
    (hmatrices : op.matrices = u :: rest) (hu : MixedState.IsDensity u.rows u.entry)
    (hstep : m.setMatrix op = .ok m') : m'.IsDensity n := by
  unfold Machine.setMatrix at hstep
  rcases bind_eq_ok_iff.mp hstep with ⟨_, _, hstep⟩
  rw [hmatrices] at hstep
  rcases bind_eq_ok_iff.mp hstep with ⟨store, hload, hstep⟩
  cases hstep
  unfold Store.loadMatrix at hload
  rcases bind_eq_ok_iff.mp hload with ⟨dim, hdim, hload⟩
  rcases checkedShift_eq_ok_iff.mp hdim with ⟨_, rfl⟩
  split at hload
  · next hshape =>
      cases hload
      rw [h.store.qubits] at hshape
      rcases Mat.hasShape_iff.mp hshape with ⟨hrows, hcols⟩
      exact h.withData (Mat.columns_isDensity hrows hcols hu)
  · rcases bind_eq_ok_iff.mp hload with ⟨_, _, hload⟩
    exact absurd hload refuse_ne_ok

end Machine.IsDensity

end MixedState
