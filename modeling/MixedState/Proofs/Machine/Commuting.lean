import MixedState.Proofs.Exact
import MixedState.Proofs.Machine.Operate

/-!
# Operators on disjoint qubits

Superoperators on disjoint lists of bits commute, and so do the instructions that are
operators on disjoint lists of qubits.
-/

namespace MixedState

open MixedState.Basis

/-!
## Disjoint bits
-/

namespace Basis

variable {ps qs : List Nat}

theorem gather_overwrite_of_disjoint (hdisjoint : forall p, p ∈ ps -> p ∉ qs) (x y : Nat) :
    gather ps (overwrite qs x y) = gather ps x :=
  gather_congr fun p hp => testBit_overwrite_of_not_mem x y (hdisjoint p hp)

theorem overwrite_comm (hps : ps.Nodup) (hqs : qs.Nodup)
    (hdisjoint : forall p, p ∈ ps -> p ∉ qs) (x y z : Nat) :
    overwrite ps (overwrite qs x y) z = overwrite qs (overwrite ps x z) y := by
  apply Nat.eq_of_testBit_eq
  intro i
  by_cases hp : i ∈ ps
  · rcases List.mem_iff_getElem?.mp hp with ⟨j, hj⟩
    rw [testBit_overwrite _ z hps hj, testBit_overwrite_of_not_mem _ y (hdisjoint i hp),
      testBit_overwrite _ z hps hj]
  · rw [testBit_overwrite_of_not_mem _ z hp]
    by_cases hq : i ∈ qs
    · rcases List.mem_iff_getElem?.mp hq with ⟨j, hj⟩
      rw [testBit_overwrite _ y hqs hj, testBit_overwrite _ y hqs hj]
    · rw [testBit_overwrite_of_not_mem _ y hq, testBit_overwrite_of_not_mem _ y hq,
        testBit_overwrite_of_not_mem _ z hp]

theorem not_mem_bothSides {n : Nat} (hps : forall p, p ∈ ps -> p < n)
    (hqs : forall q, q ∈ qs -> q < n) (hdisjoint : forall p, p ∈ ps -> p ∉ qs) :
    forall p, p ∈ bothSides n ps -> p ∉ bothSides n qs := by
  intro i hi hi'
  rcases List.mem_append.mp hi with hp | hp
  · have hlt := hps i hp
    rcases List.mem_append.mp hi' with hq | hq
    · exact hdisjoint i hp hq
    · rcases List.mem_map.mp hq with ⟨q, _, rfl⟩
      change q + n < n at hlt
      omega
  · rcases List.mem_map.mp hp with ⟨p, hmem, rfl⟩
    rcases List.mem_append.mp hi' with hq | hq
    · have hlt := hqs _ hq
      change p + n < n at hlt
      omega
    · exact hdisjoint p hmem (mem_sideBits_iff.mp hq)

end Basis

theorem act_comm {ps qs : List Nat} (hps : ps.Nodup) (hqs : qs.Nodup)
    (hdisjoint : forall p, p ∈ ps -> p ∉ qs) (u v : Entries) (f : Nat -> Amplitude ℝ) (x : Nat) :
    act ps u (act qs v f) x = act qs v (act ps u f) x := by
  have hdisjoint' : forall q, q ∈ qs -> q ∉ ps := fun q hq hp => hdisjoint q hp hq
  unfold act
  simp only [Finset.mul_sum]
  rw [Finset.sum_comm]
  apply Finset.sum_congr rfl
  intro i _
  apply Finset.sum_congr rfl
  intro j _
  rw [gather_overwrite_of_disjoint hdisjoint', gather_overwrite_of_disjoint hdisjoint,
    overwrite_comm hqs hps hdisjoint']
  ring

/-!
## Disjoint qubits
-/

namespace Machine

variable {n : Nat} {m : Machine ℝ} {ps qs : List Nat}

theorem IsRegister.transformed_transformed (h : m.IsRegister n)
    (hps : forall p, p ∈ ps -> p < n) (u v : Entries) :
    (m.transformed qs v).transformed ps u = m.withData (Buffer.tabulate m.store.data.size
      (act (bothSides n ps) u (act (bothSides n qs) v m.store.data.entry))) := by
  unfold Machine.transformed
  change m.withData (Buffer.tabulate (Buffer.tabulate _ _).size _) = _
  rw [Buffer.size_tabulate]
  congr 1
  apply Buffer.tabulate_congr
  intro x hx
  change act (bothSides m.width ps) u (Buffer.tabulate _ _).entry x = _
  rw [h.width]
  apply Finset.sum_congr rfl
  intro j _
  have hlt : overwrite (bothSides n ps) x j < m.store.data.size := by
    rcases h.size with hfull | hempty
    · rw [hfull] at hx ⊢
      exact overwrite_lt j (lt_of_mem_bothSides hps) hx
    · omega
  rw [Buffer.entry_tabulate_of_lt _ hlt]

theorem transformed_comm (hps : m.Hosts n ps) (hqs : m.Hosts n qs)
    (hdisjoint : forall p, p ∈ ps -> p ∉ qs) (u v : Entries) :
    (m.transformed qs v).transformed ps u = (m.transformed ps u).transformed qs v := by
  rw [hps.toIsRegister.transformed_transformed hps.inside,
    hps.toIsRegister.transformed_transformed hqs.inside]
  congr 2
  funext x
  exact act_comm (nodup_bothSides hps.nodup hps.inside) (nodup_bothSides hqs.nodup hqs.inside)
    (not_mem_bothSides hps.inside hqs.inside hdisjoint) u v m.store.data.entry x

end Machine

namespace Experiment

variable {n : Nat} {e : Experiment ℝ} {a b : Instruction ℝ}

theorem allows_of_unconditional {op : Instruction ℝ} (hop : op.condition = none)
    (c : Classical) : c.allows op = true := by
  unfold Classical.allows
  rw [hop]

theorem exists_apply_eq_transformed (hop : a.kind.isOperator = true)
    (hcondition : a.condition = none) (hosts : e.machine.Hosts n a.qubits) {final : Bool}
    (haccepted : (e.apply a final).1 = .ok ()) :
    exists u : Entries, forall (e' : Experiment ℝ) final,
      e'.machine.Hosts n a.qubits ->
        e'.apply a final = (.ok (), { e' with machine := e'.machine.transformed a.qubits u }) := by
  rcases exists_apply_eq_evolve hop with ⟨result, _, hresult⟩
  rw [hresult n e final hosts (allows_of_unconditional hcondition _)] at haccepted
  cases result with
  | error fault =>
      cases haccepted
  | ok u =>
      refine ⟨u, ?_⟩
      intro e' final' hosts'
      rw [hresult n e' final' hosts' (allows_of_unconditional hcondition _)]
      rfl

theorem lt_width_of_accepted {op : Instruction ℝ} {final : Bool}
    (hallows : e.machine.classical.allows op = true) (h : (e.apply op final).1 = .ok ()) :
    forall q, q ∈ op.qubits -> q < e.machine.width := by
  cases hfind : op.qubits.find? fun q => e.machine.width ≤ q with
  | some qubit =>
      unfold apply at h
      rw [hallows, hfind] at h
      cases h
  | none =>
      intro q hq
      simpa using List.find?_eq_none.mp hfind q hq

/-- Two operators on disjoint qubits, each of which a register accepts, may be applied in
either order. -/
theorem applyAll_comm {final : Bool} (hn : 4 * n < wordBits) (he : e.machine.IsRegister n)
    (ha : a.kind.isOperator = true) (hb : b.kind.isOperator = true)
    (haCondition : a.condition = none) (hbCondition : b.condition = none)
    (haNodup : a.qubits.Nodup) (hbNodup : b.qubits.Nodup)
    (hdisjoint : forall q, q ∈ a.qubits -> q ∉ b.qubits)
    (haAccepted : (e.apply a final).1 = .ok ()) (hbAccepted : (e.apply b final).1 = .ok ()) :
    exists e', e.applyAll [a, b] final = (.ok (), e') ∧
      e.applyAll [b, a] final = (.ok (), e') := by
  have hosts : forall {op : Instruction ℝ} (e' : Experiment ℝ), op.qubits.Nodup ->
      (forall q, q ∈ op.qubits -> q < e.machine.width) -> e'.machine.IsRegister n ->
      e'.machine.Hosts n op.qubits := by
    intro op e' hnodup hinside he'
    rw [he.width] at hinside
    exact ⟨he', hn, hnodup, hinside⟩
  have haInside := lt_width_of_accepted (allows_of_unconditional haCondition _) haAccepted
  have hbInside := lt_width_of_accepted (allows_of_unconditional hbCondition _) hbAccepted
  have haHosts := hosts e haNodup haInside he
  have hbHosts := hosts e hbNodup hbInside he
  rcases exists_apply_eq_transformed ha haCondition haHosts haAccepted with ⟨u, hu⟩
  rcases exists_apply_eq_transformed hb hbCondition hbHosts hbAccepted with ⟨v, hv⟩
  refine ⟨{ e with machine := (e.machine.transformed a.qubits u).transformed b.qubits v }, ?_, ?_⟩
  · have hnext := hosts { e with machine := e.machine.transformed a.qubits u } hbNodup
      hbInside (he.transformed a.qubits u)
    simp only [applyAll, hu e _ haHosts, hv _ _ hnext]
  · have hnext := hosts { e with machine := e.machine.transformed b.qubits v } haNodup
      haInside (he.transformed b.qubits v)
    rw [Machine.transformed_comm hbHosts haHosts fun q hq hq' => hdisjoint q hq' hq]
    simp only [applyAll, hv e _ hbHosts, hu _ _ hnext]

noncomputable def bothSet : Experiment ℝ :=
  ⟨Machine.ofStore ⟨2, 0, #[0, 0, 0, 0, 0, 0, 0, 0, 0, 0, 0, 0, 0, 0, 0, 1]⟩, .empty, .ofSeed 0⟩

theorem applyAll_comm_reset :
    exists e', bothSet.applyAll [.gate "x" [0] [], .reset [1]] false = (.ok (), e') ∧
      bothSet.applyAll [.reset [1], .gate "x" [0] []] false = (.ok (), e') :=
  applyAll_comm (n := 2) (by decide) ⟨rfl, rfl, Or.inl rfl⟩ rfl rfl rfl rfl (by decide)
    (by decide) (by decide) rfl rfl

end Experiment

end MixedState
