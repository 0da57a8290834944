import MixedState.Proofs.Machine.Rewriting
import MixedState.Proofs.Machine.Saves

/-!
# Instructions and the classical bits

Gates and channels leave the classical bits, a measurement records its outcome in them,
and a readout error without register bits leaves the register.
-/

namespace MixedState

variable {R : Type}

namespace Machine

variable {m : Machine R} [Scalar R]

theorem exists_record_of_measure {qubits memory registers : List Nat} {source source' : Source}
    {m' : Machine R} (h : m.measure qubits memory registers source = .ok (m', source')) :
    exists outcome, m.classical.record outcome memory registers = .ok m'.classical := by
  unfold measure at h
  rcases bind_eq_ok_iff.mp h with ⟨⟨⟨outcome, probability⟩, drawn⟩, _, h⟩
  rcases bind_eq_ok_iff.mp h with ⟨projected, hprojected, h⟩
  rcases bind_eq_ok_iff.mp h with ⟨classical, hclassical, h⟩
  cases h
  rw [((ensures_project _ _ _).of_eq_ok hprojected).classical_eq] at hclassical
  exact ⟨outcome, hclassical⟩

end Machine

namespace Experiment

variable [Scalar R] {e e' f : Experiment R} {op : Instruction R} {final : Bool}

/-!
## Runs that succeed
-/

theorem applyAll_cons_eq_ok_iff {rest : List (Instruction R)} :
    e.applyAll (op :: rest) final = (.ok (), f) ↔
      exists e', e.apply op (final && rest.isEmpty) = (.ok (), e') ∧
        e'.applyAll rest final = (.ok (), f) := by
  rw [applyAll]
  rcases happly : e.apply op (final && rest.isEmpty) with ⟨outcome, next⟩
  cases outcome with
  | ok _ =>
      constructor
      · intro h
        exact ⟨next, rfl, h⟩
      · rintro ⟨e', he', h⟩
        cases he'
        exact h
  | error fault =>
      constructor
      · intro h
        cases h
      · rintro ⟨e', he', _⟩
        cases he'

omit [Scalar R] in
theorem isEmpty_append_flag (xs ys : List (Instruction R)) :
    (final && (xs ++ ys).isEmpty) = (final && ys.isEmpty && xs.isEmpty) := by
  cases xs <;> simp

theorem applyAll_append_eq_ok_iff {xs ys : List (Instruction R)} :
    e.applyAll (xs ++ ys) final = (.ok (), f) ↔
      exists e', e.applyAll xs (final && ys.isEmpty) = (.ok (), e') ∧
        e'.applyAll ys final = (.ok (), f) := by
  induction xs generalizing e with
  | nil =>
      constructor
      · intro h
        exact ⟨e, rfl, h⟩
      · rintro ⟨e', he', h⟩
        cases he'
        exact h
  | cons op xs ih =>
      rw [List.cons_append, applyAll_cons_eq_ok_iff, isEmpty_append_flag]
      simp only [applyAll_cons_eq_ok_iff, ih]
      constructor
      · rintro ⟨next, hnext, e', he', h⟩
        exact ⟨e', ⟨next, hnext, he'⟩, h⟩
      · rintro ⟨e', ⟨next, hnext, he'⟩, h⟩
        exact ⟨next, hnext, e', he', h⟩

theorem apply_eq_ok (h : e.apply op final = (.ok (), e')) :
    e.machine.classical.allows op = false ∧ e' = e ∨
      e.machine.classical.allows op = true ∧ e.perform op final = (.ok (), e') := by
  unfold apply at h
  cases hallows : e.machine.classical.allows op with
  | false =>
      rw [hallows] at h
      cases h
      exact Or.inl ⟨rfl, rfl⟩
  | true =>
      rw [hallows, if_neg (by decide)] at h
      split at h
      · cases h
      · exact Or.inr ⟨rfl, h⟩

/-!
## Steps and the classical bits
-/

omit [Scalar R] in
theorem classical_of_evolve {result : Outcome (Machine R)}
    (hrewrites : Ensures e.machine.Rewrites result) (h : e.evolve result = (.ok (), e')) :
    e'.machine.classical = e.machine.classical := by
  cases result with
  | error fault =>
      cases h
  | ok machine =>
      cases h
      exact (hrewrites.of_eq_ok rfl).classical_eq

theorem classical_of_perform_gate (hkind : op.kind = .gate)
    (h : e.perform op final = (.ok (), e')) : e'.machine.classical = e.machine.classical := by
  unfold perform at h
  rw [hkind] at h
  exact classical_of_evolve (Machine.ensures_applyGate op) h

theorem classical_of_perform_kraus (hkind : op.kind = .kraus)
    (h : e.perform op final = (.ok (), e')) : e'.machine.classical = e.machine.classical := by
  unfold perform at h
  rw [hkind] at h
  exact classical_of_evolve (Machine.ensures_applyKraus _ _) h

theorem exists_record_of_perform_measure (hkind : op.kind = .measure)
    (h : e.perform op final = (.ok (), e')) :
    exists outcome,
      e.machine.classical.record outcome op.memory op.registers = .ok e'.machine.classical := by
  unfold perform at h
  rw [hkind] at h
  cases hmeasure : e.machine.measure op.qubits op.memory op.registers e.source with
  | error fault =>
      simp only [hmeasure] at h
      cases h
  | ok result =>
      simp only [hmeasure] at h
      cases h
      exact Machine.exists_record_of_measure hmeasure

theorem applyReadout_of_perform (hkind : op.kind = .readoutError)
    (h : e.perform op final = (.ok (), e')) :
    e.machine.classical.applyReadout op e.source = .ok (e'.machine.classical, e'.source) := by
  unfold perform at h
  rw [hkind] at h
  cases hreadout : e.machine.classical.applyReadout op e.source with
  | error fault =>
      simp only [hreadout] at h
      cases h
  | ok result =>
      simp only [hreadout] at h
      cases h
      rfl

end Experiment

end MixedState
