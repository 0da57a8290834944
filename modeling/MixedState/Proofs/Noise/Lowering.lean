import MixedState.Program.Basic
import MixedState.Proofs.Classical.Register
import MixedState.Proofs.Machine.Bits
import MixedState.Proofs.Machine.Measurement

/-!
# Noise that is put into programs

The noise of a gate or measurement comes right after it under the same condition.  It
runs when its host did, unless the host is a measurement that clears the register bit of
that condition.
-/

namespace MixedState

open MixedState.Hex (bitAt)

variable {R : Type} [Scalar R]

/-- Channels and readout errors on the memory, under the condition of their host. -/
structure Instruction.IsNoiseOf (noise host : Instruction R) : Prop where
  condition : noise.condition = host.condition
  kind : noise.kind = .kraus ∨ noise.kind = .readoutError ∧ noise.registers = []
  host : host.kind = .gate ∨ host.kind = .measure

/-- A measurement that left a zero in the register bit of its own condition. -/
def Instruction.ClearsCondition (host : Instruction R) (c : Classical) : Prop :=
  host.kind = .measure ∧
    exists bit, host.condition = some bit ∧ bit ∈ host.registers ∧ bitAt c.register bit = false

/-!
## The instructions of a source
-/

namespace NoiseModel

variable {model : NoiseModel R} {qubit slot : Nat} {noise : Instruction R}

theorem toKraus_eq_ok (h : model.toKraus qubit = .ok noise) :
    noise.kind = .kraus ∧ noise.condition = none := by
  unfold toKraus at h
  split at h
  · unfold Instruction.kraus at h
    rcases bind_eq_ok_iff.mp h with ⟨dim, _, h⟩
    rcases bind_eq_ok_iff.mp h with ⟨_, _, h⟩
    cases h
    exact ⟨rfl, rfl⟩
  · cases h

theorem toInstruction_eq_ok (h : model.toInstruction qubit slot = .ok noise) :
    (noise.kind = .kraus ∨ noise.kind = .readoutError ∧ noise.registers = []) ∧
      noise.condition = none := by
  unfold toInstruction at h
  split at h
  · cases h
    exact ⟨Or.inr ⟨rfl, rfl⟩, rfl⟩
  · rcases toKraus_eq_ok h with ⟨hkind, hcondition⟩
    exact ⟨Or.inl hkind, hcondition⟩

end NoiseModel

namespace Program

variable {noise : List (NoiseSource R)} {host : Instruction R} {added ops : List (Instruction R)}
  {place : Nat}

theorem isNoiseOf_of_noiseOn {qubit : Nat} {model : NoiseModel R}
    (h : noiseOn host place qubit model = .ok added) :
    forall op, op ∈ added -> op.IsNoiseOf host := by
  intro op hop
  have hhost : host.kind = .gate ∨ host.kind = .measure := by
    cases hkind : host.kind with
    | gate =>
        exact Or.inl rfl
    | measure =>
        exact Or.inr rfl
    | _ =>
        unfold noiseOn at h
        rw [hkind] at h
        cases h
        cases hop
  unfold noiseOn at h
  dsimp only at h
  split at h
  · cases h
    cases hop
  · next slot _ =>
      cases hmodel : model.toInstruction qubit slot with
      | error fault =>
          rw [hmodel] at h
          cases h
      | ok noise =>
          rcases NoiseModel.toInstruction_eq_ok hmodel with ⟨hkind, hcondition⟩
          rw [hmodel] at h
          cases h
          rw [List.mem_singleton.mp hop]
          cases hbit : host.condition with
          | none =>
              exact ⟨hcondition.trans hbit.symm, hkind, hhost⟩
          | some bit =>
              exact ⟨hbit.symm, hkind, hhost⟩

theorem noiseAfter_cons_eq_ok_iff {qubit : Nat} {rest : List Nat} :
    noiseAfter noise host place (qubit :: rest) = .ok added ↔
      exists here there,
        (noise.filter fun source => source.qubit == qubit).mapM
          (fun source => noiseOn host place qubit source.model) = .ok here ∧
        noiseAfter noise host (place + 1) rest = .ok there ∧ added = here.flatten ++ there := by
  constructor
  · intro h
    rcases bind_eq_ok_iff.mp h with ⟨here, hhere, h⟩
    rcases bind_eq_ok_iff.mp h with ⟨there, hthere, h⟩
    cases h
    exact ⟨here, there, hhere, hthere, rfl⟩
  · rintro ⟨here, there, hhere, hthere, rfl⟩
    rw [noiseAfter, hhere, ok_bind, hthere]
    rfl

theorem isNoiseOf_of_mapM {qubit : Nat} {sources : List (NoiseSource R)}
    {here : List (List (Instruction R))}
    (h : sources.mapM (fun source => noiseOn host place qubit source.model) = .ok here) :
    forall op, op ∈ here.flatten -> op.IsNoiseOf host := by
  induction sources generalizing here with
  | nil =>
      cases h
      intro op hop
      cases hop
  | cons source rest ih =>
      rw [List.mapM_cons] at h
      rcases bind_eq_ok_iff.mp h with ⟨first, hfirst, h⟩
      rcases bind_eq_ok_iff.mp h with ⟨others, hothers, h⟩
      cases h
      intro op hop
      rcases List.mem_append.mp hop with hop | hop
      · exact isNoiseOf_of_noiseOn hfirst op hop
      · exact ih hothers op hop

theorem isNoiseOf_of_noiseAfter {qubits : List Nat}
    (h : noiseAfter noise host place qubits = .ok added) :
    forall op, op ∈ added -> op.IsNoiseOf host := by
  induction qubits generalizing place added with
  | nil =>
      cases h
      intro op hop
      cases hop
  | cons qubit rest ih =>
      rcases noiseAfter_cons_eq_ok_iff.mp h with ⟨here, there, hhere, hthere, rfl⟩
      intro op hop
      rcases List.mem_append.mp hop with hop | hop
      · exact isNoiseOf_of_mapM hhere op hop
      · exact ih hthere op hop

theorem withNoise_cons_eq_ok_iff {op : Instruction R} {rest : List (Instruction R)} :
    withNoise noise (op :: rest) = .ok ops ↔
      exists added after, noiseAfter noise op 0 op.qubits = .ok added ∧
        withNoise noise rest = .ok after ∧ ops = op :: (added ++ after) := by
  constructor
  · intro h
    rcases bind_eq_ok_iff.mp h with ⟨added, hadded, h⟩
    rcases bind_eq_ok_iff.mp h with ⟨after, hafter, h⟩
    cases h
    exact ⟨added, after, hadded, hafter, rfl⟩
  · rintro ⟨added, after, hadded, hafter, rfl⟩
    rw [withNoise, hadded, ok_bind, hafter]
    rfl

theorem withNoise_split {front back : List (Instruction R)}
    (h : withNoise noise (front ++ host :: back) = .ok ops) :
    exists before added after, withNoise noise front = .ok before ∧
      noiseAfter noise host 0 host.qubits = .ok added ∧ withNoise noise back = .ok after ∧
      ops = before ++ host :: (added ++ after) := by
  induction front generalizing ops with
  | nil =>
      rcases withNoise_cons_eq_ok_iff.mp h with ⟨added, after, hadded, hafter, hops⟩
      exact ⟨[], added, after, rfl, hadded, hafter, hops⟩
  | cons op front ih =>
      rcases withNoise_cons_eq_ok_iff.mp h with ⟨own, rest, hown, hrest, rfl⟩
      rcases ih hrest with ⟨before, added, after, hbefore, hadded, hafter, rfl⟩
      refine ⟨op :: (own ++ before), added, after, ?_, hadded, hafter, ?_⟩
      · exact withNoise_cons_eq_ok_iff.mpr ⟨own, before, hown, hbefore, rfl⟩
      · rw [List.cons_append, List.append_assoc]

end Program

/-!
## Runs of noise
-/

namespace Experiment

variable {e e' : Experiment R} {host op : Instruction R} {final : Bool}

theorem register_of_noise (hop : op.IsNoiseOf host) (h : e.apply op final = (.ok (), e')) :
    e'.machine.classical.register = e.machine.classical.register := by
  rcases apply_eq_ok h with ⟨_, rfl⟩ | ⟨_, hperform⟩
  · rfl
  · rcases hop.kind with hkind | ⟨hkind, hregisters⟩
    · rw [classical_of_perform_kraus hkind hperform]
    · have hreadout := applyReadout_of_perform hkind hperform
      rcases Classical.applyReadout_eq_ok hreadout with ⟨_, _, _, _, _, _, hrecord⟩
      rw [hregisters] at hrecord
      have hwritten := (Classical.record_eq_ok_iff.mp hrecord).2
      exact (Except.ok.inj hwritten).symm

theorem register_of_noises {ops : List (Instruction R)}
    (hops : forall op, op ∈ ops -> op.IsNoiseOf host)
    (h : e.applyAll ops final = (.ok (), e')) :
    e'.machine.classical.register = e.machine.classical.register := by
  induction ops generalizing e with
  | nil =>
      cases h
      rfl
  | cons op rest ih =>
      rcases applyAll_cons_eq_ok_iff.mp h with ⟨next, hnext, hrest⟩
      rw [ih (fun op hop => hops op (List.mem_cons_of_mem _ hop)) hrest,
        register_of_noise (hops op List.mem_cons_self) hnext]

/-- After a gate or a measurement its condition is met if it ran and did not clear it. -/
theorem allows_after_host (hkind : host.kind = .gate ∨ host.kind = .measure)
    (h : e.apply host final = (.ok (), e')) :
    e'.machine.classical.allows host = true ↔
      e.machine.classical.allows host = true ∧ ¬host.ClearsCondition e'.machine.classical := by
  rcases apply_eq_ok h with ⟨hskip, rfl⟩ | ⟨hallows, hperform⟩
  · simp [hskip]
  · rw [hallows]
    rcases hkind with hgate | hmeasure
    · have hclears : ¬host.ClearsCondition e'.machine.classical := by
        rintro ⟨hkind, _⟩
        rw [hgate] at hkind
        cases hkind
      rw [classical_of_perform_gate hgate hperform] at hclears ⊢
      simp [hallows, hclears]
    · rcases exists_record_of_perform_measure hmeasure hperform with ⟨outcome, hrecord⟩
      unfold Classical.allows Instruction.ClearsCondition
      unfold Classical.allows at hallows
      cases hcondition : host.condition with
      | none =>
          simp
      | some bit =>
          rw [hcondition] at hallows
          by_cases hbit : bit ∈ host.registers
          · simp [hmeasure, hbit]
          · have hkept := Classical.bitAt_writeBits_of_not_mem
              (Classical.record_eq_ok_iff.mp hrecord).2 hbit
            dsimp only at hallows ⊢
            rw [hkept, hallows]
            simp [hbit]

omit [Scalar R] in
theorem allows_congr {c c' : Classical} (hcondition : op.condition = host.condition)
    (hregister : c.register = c'.register) : c.allows op = c'.allows host := by
  unfold Classical.allows
  rw [hcondition, hregister]

end Experiment

/-!
## Noise runs when its host does
-/

/-- In a run that succeeds, the noise of an instruction runs exactly when the instruction
did, except behind a measurement that cleared the register bit of its own condition. -/
theorem Program.noise_allowed_iff {program : Program R} {ops : List (Instruction R)}
    {start : Experiment R} {final : Bool} (hlowered : program.lowered = .ok ops)
    (hrun : (start.applyAll ops final).1 = .ok ()) {front back : List (Instruction R)}
    {host : Instruction R} (hops : program.ops = front ++ host :: back) :
    exists before added after, withNoise program.noise front = .ok before ∧
      noiseAfter program.noise host 0 host.qubits = .ok added ∧
      withNoise program.noise back = .ok after ∧ ops = before ++ host :: (added ++ after) ∧
      forall first noise rest, added = first ++ noise :: rest ->
        exists e h f, start.applyAll before false = (.ok (), e) ∧
          e.apply host false = (.ok (), h) ∧ h.applyAll first false = (.ok (), f) ∧
          (f.machine.classical.allows noise = true ↔
            e.machine.classical.allows host = true ∧
              ¬host.ClearsCondition h.machine.classical) := by
  unfold lowered at hlowered
  rw [hops] at hlowered
  rcases withNoise_split hlowered with ⟨before, added, after, hbefore, hadded, hafter, rfl⟩
  refine ⟨before, added, after, hbefore, hadded, hafter, rfl, ?_⟩
  rintro first noise rest rfl
  have hnoise := isNoiseOf_of_noiseAfter hadded
  rcases hresult : start.applyAll (before ++ host :: (first ++ noise :: rest ++ after)) final with
    ⟨outcome, last⟩
  rw [hresult] at hrun
  cases hrun
  rcases Experiment.applyAll_append_eq_ok_iff.mp hresult with ⟨e, he, hresult⟩
  rcases Experiment.applyAll_cons_eq_ok_iff.mp hresult with ⟨h, hh, hresult⟩
  have hlater : forall rest : List (Instruction R),
      (final && (first ++ noise :: rest).isEmpty) = false := by
    intro rest
    cases first <;> simp
  rw [List.append_assoc, List.cons_append] at hresult hh
  rw [hlater] at hh
  rcases Experiment.applyAll_append_eq_ok_iff.mp hresult with ⟨f, hf, _⟩
  rw [List.isEmpty_cons, Bool.and_false] at he hf
  refine ⟨e, h, f, he, hh, hf, ?_⟩
  have hfirst := Experiment.register_of_noises
    (fun op hop => hnoise op (List.mem_append_left _ hop)) hf
  have hhost := hnoise noise (by simp)
  rw [Experiment.allows_congr hhost.condition hfirst]
  exact Experiment.allows_after_host hhost.host hh

/-!
## A measurement that clears its condition
-/

noncomputable def Experiment.oneQubit (bits : Classical) : Experiment ℝ :=
  ⟨{ Machine.ofStore ⟨1, 0, #[1, 0, 0, 0]⟩ with classical := bits }, .empty, .ofSeed 0⟩

theorem Experiment.exists_measure_oneQubit {bits recorded : Classical}
    {op : Instruction ℝ} (hkind : op.kind = .measure) (hqubits : op.qubits = [0])
    (hallows : bits.allows op = true)
    (hrecord : bits.record 0 op.memory op.registers = .ok recorded) :
    exists e, (oneQubit bits).apply op false = (.ok (), e) ∧ e.machine.classical = recorded := by
  have hmarginal : forall i, (oneQubit bits).machine.store.marginal [0] i =
      if i = 0 then 1 else 0 := by
    intro i
    change ∑ x ∈ Finset.range 2, _ = _
    rw [Finset.sum_range_succ, Finset.sum_range_one]
    simp [Basis.cell, Buffer.entry, oneQubit, Machine.ofStore, twoPow, eq_comm]
  have hmeasurable : (oneQubit bits).machine.Measurable [0] 0 :=
    ⟨rfl, by change forall q, q ∈ [0] -> q < 1; decide, by change 1 < 64; decide,
      by change 2 * 2 ≤ 4; decide, by decide, by decide,
      Or.inr ⟨by change forall q, q ∈ [0, 0 + 1] -> q < 64; decide, by decide⟩⟩
  have hmeasure := hmeasurable.measure_of_single (hmarginal 0) one_pos
    (fun i hi => by rw [hmarginal, if_neg hi]) op.memory op.registers (oneQubit bits).source
  have hinside : forall q, q ∈ op.qubits -> q < (oneQubit bits).machine.width := by
    rw [hqubits]
    change forall q, q ∈ [0] -> q < 1
    decide
  let collapsed := (oneQubit bits).machine.collapsed [0] 0 (if 0 = 0 then 1 else 0)
  have happly : (oneQubit bits).apply op false = (.ok (), { oneQubit bits with
      machine := { collapsed with classical := recorded }
      source := (oneQubit bits).source.advance }) := by
    rw [apply_of_allows hallows hinside]
    unfold perform
    rw [hkind, hqubits]
    dsimp only
    rw [hmeasure, show (oneQubit bits).machine.classical = bits from rfl, hrecord]
    rfl
  exact ⟨_, happly, rfl⟩

open Instruction

noncomputable def Instruction.raised : Instruction ℝ :=
  .bfunc "0x0" "0x0" .equal 0 none

noncomputable def Instruction.reading : Instruction ℝ :=
  ((Instruction.measure [0] [0]).withRegisters [0]).withCondition 0

noncomputable def Instruction.misreading : Instruction ℝ :=
  (Instruction.readoutError [0] [[1 - 1, 1], [1, 1 - 1]]).withCondition 0

/-- A measurement that its own register bit conditions, and a readout error that reports
the other value. -/
noncomputable def Program.clearing : Program ℝ :=
  { qubits := 1
    memory := 1
    registers := 1
    ops := [raised, reading]
    noise := [⟨0, ⟨.readoutError, 1⟩⟩] }

theorem Program.noise_allowed_iff_cleared :
    Program.clearing.lowered = .ok [raised, reading, misreading] ∧
      ((Experiment.oneQubit ⟨[false], [false]⟩).applyAll [raised, reading, misreading] false).1
        = .ok () ∧
      exists e h, (Experiment.oneQubit ⟨[false], [false]⟩).applyAll [raised] false = (.ok (), e) ∧
        e.apply reading false = (.ok (), h) ∧ e.machine.classical.allows reading = true ∧
        h.machine.classical.allows misreading = false := by
  have hlowered : Program.clearing.lowered = .ok [raised, reading, misreading] := rfl
  have hflag : (Experiment.oneQubit ⟨[false], [false]⟩).apply raised false =
      (.ok (), Experiment.oneQubit ⟨[false], [true]⟩) := rfl
  have hrecord : (Classical.mk [false] [true]).record 0 [0] [0] = .ok ⟨[false], [false]⟩ := rfl
  have hmeasured : exists e, (Experiment.oneQubit ⟨[false], [true]⟩).apply reading false =
      (.ok (), e) ∧ e.machine.classical = ⟨[false], [false]⟩ :=
    Experiment.exists_measure_oneQubit rfl rfl rfl hrecord
  rcases hmeasured with ⟨measured, hreading, hbits⟩
  have hskip : measured.apply misreading false = (.ok (), measured) := by
    unfold Experiment.apply
    rw [hbits]
    rfl
  have hrun : (Experiment.oneQubit ⟨[false], [false]⟩).applyAll [raised, reading, misreading]
      false = (.ok (), measured) :=
    Experiment.applyAll_cons_eq_ok_iff.mpr ⟨_, hflag,
      Experiment.applyAll_cons_eq_ok_iff.mpr ⟨_, hreading,
        Experiment.applyAll_cons_eq_ok_iff.mpr ⟨_, hskip, rfl⟩⟩⟩
  have hops : Program.clearing.ops = [raised] ++ reading :: [] := rfl
  have hsucceeds := congrArg Prod.fst hrun
  rcases Program.noise_allowed_iff hlowered hsucceeds hops with
    ⟨before, added, after, hbefore, hadded, hafter, _, hnoise⟩
  cases hbefore
  cases hadded
  rcases hnoise [] misreading [] rfl with ⟨e, h, f, he, hh, hf, hiff⟩
  cases hf
  cases he.symm.trans (Experiment.applyAll_cons_eq_ok_iff.mpr ⟨_, hflag, rfl⟩)
  cases hh.symm.trans hreading
  refine ⟨hlowered, hsucceeds, _, _, he, hh, rfl, ?_⟩
  rw [← Bool.not_eq_true, hiff]
  rintro ⟨_, hkept⟩
  exact hkept ⟨rfl, 0, rfl, by decide, by rw [hbits]; rfl⟩

end MixedState
