import Mathlib.Analysis.Complex.Exponential
import Mathlib.Tactic.IntervalCases
import MixedState.Proofs.InPlace.Gates

/-!
# Gates by their textbook matrices

Gates with loops of their own move entries and multiply them by phases instead of summing
rows.  They leave what the matrix of the gate leaves.
-/

namespace MixedState

open MixedState.Basis

/-!
## The matrix of an action
-/

noncomputable def Action.entries (op : Instruction ℝ) (count : Nat) : Action -> Entries
  | .nothing => monomial id fun _ => 1
  | .sided s => s.matrix count
  | .diagonal entries => monomial id entries.entry
  | .matrix u => u.entry
  | .swap => monomial (Kernel.exchanged 0 1) fun _ => 1
  | .pauli => Kernel.pauliEntries count (op.texts.headD "")

namespace Machine.Lists

variable {n : Nat} {m : Machine ℝ} {op : Instruction ℝ} {gate : Gate}

theorem gives_enact {a : Action} (h : m.Lists n op.qubits) (hnodup : op.qubits.Nodup)
    (hfits : a.Fits op.qubits.length) (hsized : a.Sized op.qubits.length)
    (hspelled : a = .pauli -> exists string rest, op.texts = string :: rest ∧
      Spells op.qubits string) :
    Gives (m.Holds n (krausSum op.qubits [a.entries op op.qubits.length]
      (m.store.data.toEntries n))) (m.enact op a) := by
  cases a with
  | nothing =>
      have hmoves : Kernel.Moves n id (fun _ => 1) fun b => .ok b := by
        intro b _
        refine ⟨b, rfl, rfl, ?_⟩
        intro r c _ _
        rw [id, id, one_mul, Amplitude.conj_one, mul_one]
      have hspelled : Kernel.IsSpelled n op.qubits id (fun _ => 1) id fun _ => 1 :=
        ⟨fun _ ha => ha, fun _ _ _ _ => rfl, fun _ _ _ _ => rfl⟩
      have hacts := hmoves.actsAs hnodup h.inside hspelled
      exact h.gives_onData hnodup hacts (Kernel.isSuperop_superopOf _ _)
  | sided s =>
      unfold enact
      rw [h.qubits]
      exact h.gives_onData hnodup (Sided.actsAs_both h.small hnodup h.inside hfits)
        (Kernel.isSuperop_superopOf _ _)
  | diagonal entries =>
      exact h.gives_applyDiagonal hnodup hsized fun i j _ _ => if_congr eq_comm rfl rfl
  | matrix u =>
      exact h.gives_applyMatrix hnodup hsized.2.1 hsized.2.2
  | swap =>
      rcases List.length_eq_two.mp hfits with ⟨p, q, hpair⟩
      unfold enact
      rw [h.qubits]
      rw [hpair] at h hnodup ⊢
      change Gives _ (m.onData (Kernel.swap n p q))
      exact h.gives_onData hnodup (Kernel.actsAs_swap h.small hnodup h.inside)
        (Kernel.isSuperop_superopOf _ _)
  | pauli =>
      rcases hspelled rfl with ⟨string, rest, htexts, hspells⟩
      have hhead : op.texts.headD "" = string := by
        rw [htexts]
        rfl
      unfold enact Action.entries
      rw [h.applyPauli_eq_onData op htexts, hhead]
      exact h.gives_onData hnodup (Kernel.actsAs_pauli hspells h.small hnodup h.inside)
        (Kernel.isSuperop_superopOf _ _)

theorem gives_applyGate (h : m.Lists n op.qubits) (hnodup : op.qubits.Nodup)
    (hname : Gate.ofName op.name = .ok gate) (hcheck : checkGate op gate = .ok ())
    (hspelled : gate.action op = .pauli -> exists string rest, op.texts = string :: rest ∧
      Spells op.qubits string) :
    Gives (m.Holds n (krausSum op.qubits [(gate.action op).entries op op.qubits.length]
      (m.store.data.toEntries n))) (m.applyGate op) := by
  have hwidth := (checkGate_eq_ok_iff.mp hcheck).1
  rw [h.applyGate_eq_enact op hname hcheck]
  exact h.gives_enact hnodup (gate.action_fits op hwidth) (gate.sized_action op hwidth) hspelled

end Machine.Lists

/-!
## Textbook matrices
-/

noncomputable def Amplitude.turn (lambda : Amplitude ℝ) : Amplitude ℝ :=
  let z := Complex.exp (Complex.I * ⟨lambda.re, lambda.im⟩)
  ⟨z.re, z.im⟩

theorem Amplitude.turn_eq (lambda : Amplitude ℝ) : lambda.turn = (unit * lambda).exp := by
  unfold turn exp polar
  ext
  · simp [Complex.exp_re]
    rfl
  · simp [Complex.exp_im]
    rfl

theorem Amplitude.turn_ofReal (angle : ℝ) : (ofReal angle).turn = polar 1 angle := by
  have hre : (unit * ofReal angle).re = 0 := by simp
  have him : (unit * ofReal angle).im = angle := by simp
  have hone : Scalar.exp (0 : ℝ) = 1 := Real.exp_zero
  rw [turn_eq]
  unfold exp
  rw [hre, him, hone]

theorem Machine.phaseParam_eq (op : Instruction ℝ) :
    phaseParam op = (op.params.getD 0 0).turn := by
  unfold phaseParam
  rw [Array.getD_eq_getD_getElem?]
  cases op.params[0]? with
  | some lambda =>
      exact (Amplitude.turn_eq lambda).symm
  | none =>
      have hzero : (0 : Amplitude ℝ).turn = 1 := by
        rw [Amplitude.turn_eq, mul_zero]
        ext
        · simp [Amplitude.exp, Amplitude.polar, Scalar.exp, Scalar.cos]
        · simp [Amplitude.exp, Amplitude.polar, Scalar.exp, Scalar.sin]
      exact hzero.symm

theorem Instruction.realParam_eq (op : Instruction ℝ) :
    (op.realParam? 0).getD 0 = (op.params.getD 0 0).re := by
  unfold realParam?
  rw [Array.getD_eq_getD_getElem?]
  cases op.params[0]? <;> rfl

open Amplitude (turn ofReal) in
/-- The matrix of a gate that has a loop of its own, with `lambda` as its parameter.  The
first qubit is in the low bit of an index, so the controls of `cx`, `cy` and `ccx` are in
the low bits. -/
noncomputable def Gate.textbook? (lambda : Amplitude ℝ) (gate : Gate) : Option (Mat ℝ) :=
  let i : Amplitude ℝ := Amplitude.unit
  let eighth := ofReal (Real.pi / (4 : Nat))
  let eighthBack := ofReal (-(Real.pi / (4 : Nat)))
  let half := ofReal (lambda.re / (2 : Nat))
  let halfBack := ofReal (-lambda.re / (2 : Nat))
  match gate with
  | .x => some (.two 0 1 1 0)
  | .y => some (.two 0 (-i) i 0)
  | .z => some (.two 1 0 0 (-1))
  | .s => some (.two 1 0 0 i)
  | .sdg => some (.two 1 0 0 (-i))
  | .t => some (.two 1 0 0 eighth.turn)
  | .tdg => some (.two 1 0 0 eighthBack.turn)
  | .u1 => some (.two 1 0 0 lambda.turn)
  | .rz => some (.two halfBack.turn 0 0 half.turn)
  | .cx => some (.four 1 0 0 0  0 0 0 1  0 0 1 0  0 1 0 0)
  | .cy => some (.four 1 0 0 0  0 0 0 (-i)  0 0 1 0  0 i 0 0)
  | .cz => some (.four 1 0 0 0  0 1 0 0  0 0 1 0  0 0 0 (-1))
  | .cp => some (.four 1 0 0 0  0 1 0 0  0 0 1 0  0 0 0 lambda.turn)
  | .swap => some (.four 1 0 0 0  0 0 1 0  0 1 0 0  0 0 0 1)
  | .rzz =>
      some (.four halfBack.turn 0 0 0  0 half.turn 0 0  0 0 half.turn 0  0 0 0 halfBack.turn)
  | .ccx => some (.ofFn 8 8 fun r c =>
      if c = (if r = 3 then 7 else if r = 7 then 3 else r) then 1 else 0)
  | _ => none

theorem Gate.entries_action {op : Instruction ℝ} {gate : Gate} {count : Nat} {u : Mat ℝ}
    (hwidth : gate.width = some count) (hu : gate.textbook? (op.params.getD 0 0) = some u) :
    (Action.matrix u).Sized count ∧
      forall i j, i < twoPow count -> j < twoPow count ->
        (gate.action op).entries op count i j = u.entry i j := by
  have htwo : (2 : Nat) ≠ 1 ∧ 2 = twoPow 1 ∧ 2 = twoPow 1 := by decide
  have hfour : (4 : Nat) ≠ 1 ∧ 4 = twoPow 2 ∧ 4 = twoPow 2 := by decide
  have height : (8 : Nat) ≠ 1 ∧ 8 = twoPow 3 ∧ 8 = twoPow 3 := by decide
  cases gate with
  | x | y | z | s =>
      cases hwidth
      cases hu
      refine ⟨htwo, ?_⟩
      intro i j (hi : i < 2) (hj : j < 2)
      interval_cases i <;> interval_cases j <;> rfl
  | sdg =>
      have hback : (⟨0, -1⟩ : Amplitude ℝ) = -Amplitude.unit := by ext <;> simp
      cases hwidth
      cases hu
      refine ⟨htwo, ?_⟩
      intro i j (hi : i < 2) (hj : j < 2)
      simp only [action, hback]
      interval_cases i <;> interval_cases j <;> rfl
  | t | tdg | u1 | rz =>
      cases hwidth
      cases hu
      refine ⟨htwo, ?_⟩
      intro i j (hi : i < 2) (hj : j < 2)
      simp only [action, Machine.phaseParam_eq, Instruction.realParam_eq, Amplitude.turn_ofReal]
      interval_cases i <;> interval_cases j <;> rfl
  | cx | cy | cz | swap =>
      cases hwidth
      cases hu
      refine ⟨hfour, ?_⟩
      intro i j (hi : i < 4) (hj : j < 4)
      interval_cases i <;> interval_cases j <;> rfl
  | cp | rzz =>
      cases hwidth
      cases hu
      refine ⟨hfour, ?_⟩
      intro i j (hi : i < 4) (hj : j < 4)
      simp only [action, Machine.phaseParam_eq, Instruction.realParam_eq, Amplitude.turn_ofReal]
      interval_cases i <;> interval_cases j <;> rfl
  | ccx =>
      cases hwidth
      cases hu
      refine ⟨height, ?_⟩
      intro i j (hi : i < 8) (hj : j < 8)
      rw [Mat.entry_ofFn _ hi hj]
      interval_cases i <;> interval_cases j <;> rfl
  | id | h | sx | sxdg | r | rx | ry | u2 | u3 | rxx | ryy | rzx | ecr | pauli =>
      cases hu

theorem Gate.action_ne_pauli {op : Instruction ℝ} {gate : Gate} {count : Nat}
    (hwidth : gate.width = some count) : gate.action op ≠ .pauli := by
  intro haction
  cases gate with
  | pauli =>
      cases hwidth
  | id | x | y | z | h | s | sdg | t | tdg | sx | sxdg | r | rx | ry | rz | u1 | u2 | u3
  | cx | cy | cz | cp | swap | rxx | ryy | rzz | rzx | ecr | ccx =>
      cases haction

namespace Machine

variable {n : Nat} {m : Machine ℝ} {op : Instruction ℝ} {gate : Gate}

/-- The matrix and the gate leave the same `U ρ U†`, with the loops of the gate as with those
of the matrix. -/
theorem applyGate_leaves_textbook (op : Instruction ℝ) {u : Mat ℝ} (h : m.Lists n op.qubits)
    (hnodup : op.qubits.Nodup) (hname : Gate.ofName op.name = .ok gate)
    (hwidth : gate.width = some op.qubits.length) (hparams : gate.paramCount ≤ op.params.size)
    (hu : gate.textbook? (op.params.getD 0 0) = some u) :
    exists m', m.applyGate op = .ok m' ∧ m.applyMatrix op.qubits u = .ok m' ∧
      m.Holds n (krausSum op.qubits [u.entry] (m.store.data.toEntries n)) m' ∧
      (gate.action op).passes op n m.store.data = .ok m'.store.data ∧
      Kernel.InPlace.unitary n op.qubits u.columns m.store.data = .ok m'.store.data := by
  rcases Gate.entries_action hwidth hu with ⟨hsized, hentries⟩
  have hcheck : checkGate op gate = .ok () := by
    refine checkGate_eq_ok_iff.mpr ⟨?_, hparams⟩
    intro k hk
    exact Option.some.inj (hwidth.symm.trans hk)
  have hother : gate.action op ≠ .pauli := Gate.action_ne_pauli hwidth
  rcases h.gives_applyGate hnodup hname hcheck (fun haction => absurd haction hother) with
    ⟨m₁, hgate, hholds⟩
  rcases h.gives_applyMatrix hnodup hsized.2.1 hsized.2.2 with ⟨m₂, hmatrix, hholds'⟩
  rw [krausSum_congr hentries] at hholds
  have hsame : m₁ = m₂ := hholds.unique hholds'
  subst hsame
  have hgateLoops := hgate
  rw [h.applyGate_eq_passes hnodup hname hcheck] at hgateLoops
  have hmatrixLoops : m.enact op (.matrix u) = .ok m₁ := hmatrix
  rw [h.enact_eq_passes (a := .matrix u) hnodup trivial hsized] at hmatrixLoops
  rcases onData_eq_ok_iff.mp hgateLoops with ⟨b, hpasses, rfl⟩
  rcases onData_eq_ok_iff.mp hmatrixLoops with ⟨b', hpasses', hb'⟩
  refine ⟨_, hgate, hmatrix, hholds, hpasses, ?_⟩
  rw [hb']
  exact hpasses'

/-- With the second qubit as control, Y raises the first qubit. -/
theorem applyGate_leaves_textbook_cy :
    exists m', (ofStore ⟨2, 0, Buffer.tabulate 16 fun x => if x = 10 then 1 else 0⟩).applyGate
        (.gate "cy" [1, 0] []) = .ok m' ∧ m'.store.data.toEntries 2 3 3 = 1 := by
  have hlists : (ofStore ⟨2, 0, Buffer.tabulate 16 fun x =>
      if x = 10 then (1 : Amplitude ℝ) else 0⟩).Lists 2 [1, 0] :=
    ⟨⟨⟨rfl, rfl, Or.inl (Buffer.size_tabulate _ _)⟩, Buffer.size_tabulate _ _, by decide⟩,
      by decide⟩
  rcases applyGate_leaves_textbook (.gate "cy" [1, 0] []) hlists (by decide) rfl rfl
    (by decide) rfl with ⟨m', hgate, _, hholds, _⟩
  refine ⟨m', hgate, ?_⟩
  rw [hholds.entries 3 3 (by decide) (by decide)]
  change krausSum [1, 0] _ _ 3 3 = 1
  have hread : (Buffer.tabulate 16 fun x => if x = 10 then (1 : Amplitude ℝ) else 0).toEntries 2
      (overwrite [1, 0] 3 1) (overwrite [1, 0] 3 1) = 1 :=
    (Buffer.entry_tabulate_of_lt _ (by decide)).trans (if_pos (by decide))
  have hrow : forall j, j ∈ Finset.range (twoPow [1, 0].length) ->
      (Mat.four 1 0 0 0  0 0 0 (-Amplitude.unit)  0 0 1 0  0 Amplitude.unit 0 0 : Mat ℝ).entry
        (gather [1, 0] 3) j = if j = 1 then Amplitude.unit else 0 := by
    intro j hj
    have hlt : j < 4 := Finset.mem_range.mp hj
    interval_cases j <;> rfl
  have hone : 1 ∈ Finset.range (twoPow [1, 0].length) := by decide
  have hphase : (Amplitude.unit * 1 * Amplitude.unit.conj : Amplitude ℝ) = 1 := by ext <;> simp
  unfold krausSum
  rw [List.map_singleton, List.sum_singleton, Finset.sum_eq_single 1, Finset.sum_eq_single 1]
  · rw [hrow 1 hone, if_pos rfl]
    exact (congrArg (fun a => Amplitude.unit * a * Amplitude.unit.conj) hread).trans hphase
  · intro b hb hne
    rw [hrow b hb, if_neg hne, Amplitude.conj_zero, mul_zero]
  · exact fun h => absurd hone h
  · intro a ha hne
    rw [hrow a ha, if_neg hne]
    simp only [zero_mul, Finset.sum_const_zero]
  · exact fun h => absurd hone h

end Machine

end MixedState
