import MixedState.Command.Report
import MixedState.Proofs.Noise.Lowering

/-!
# Readout errors and the two copies of an outcome

A measurement writes its outcome to the memory and to the register.  The readout errors
behind it write what they report to the memory only, so that the register keeps the
measured bits.
-/

namespace MixedState

open MixedState.Hex (bitAt)

variable {R : Type} [Scalar R]

/-- What the readout errors among the models report of a bit, each of them of what the one
before it reported. -/
def NoiseModel.reported : List (NoiseModel R) -> Bool -> Source -> Outcome (Bool × Source)
  | [], bit, source => .ok (bit, source)
  | model :: rest, bit, source =>
      match model.readout? with
      | none => reported rest bit source
      | some table => do
          let (value, source) ← source.choose (table.getD bit.toNat [])
          reported rest (value.testBit 0) source

def Program.modelsOn (noise : List (NoiseSource R)) (qubit : Nat) : List (NoiseModel R) :=
  (noise.filter fun source => source.qubit == qubit).map NoiseSource.model

def Program.modelsAt (noise : List (NoiseSource R)) (host : Instruction R) (i : Nat) :
    List (NoiseModel R) :=
  match host.qubits[i]? with
  | some qubit => modelsOn noise qubit
  | none => []

namespace NoiseModel

variable {model : NoiseModel R} {rest : List (NoiseModel R)} {bit : Bool} {source : Source}

theorem reported_of_not_readout (h : model.readout? = none) :
    reported (model :: rest) bit source = reported rest bit source := by
  rw [reported, h]

theorem reported_of_readout {table : List (List R)} {value : Nat} {drawn : Source}
    (h : model.readout? = some table)
    (hdrawn : source.choose (table.getD bit.toNat []) = .ok (value, drawn)) :
    reported (model :: rest) bit source = reported rest (value.testBit 0) drawn := by
  rw [reported, h]
  dsimp only
  rw [hdrawn]
  rfl

end NoiseModel

/-!
## The readout errors of a measurement
-/

namespace Program

variable {host : Instruction R} {model : NoiseModel R} {place qubit slot : Nat}

theorem noiseOn_of_not_readout (hkind : host.kind = .measure) (h : model.readout? = none) :
    noiseOn host place qubit model = .ok [] := by
  unfold noiseOn
  rw [hkind, h]
  rfl

theorem noiseOn_of_no_slot (hkind : host.kind = .measure) (hslot : host.memory[place]? = none) :
    noiseOn host place qubit model = .ok [] := by
  unfold noiseOn
  rw [hkind, hslot]
  cases model.readout? <;> rfl

theorem noiseOn_of_readout {table : List (List R)} (hkind : host.kind = .measure)
    (hcondition : host.condition = none) (hslot : host.memory[place]? = some slot)
    (h : model.readout? = some table) :
    noiseOn host place qubit model = .ok [Instruction.readoutError [slot] table] := by
  unfold noiseOn NoiseModel.toInstruction
  rw [hkind, hslot, h, hcondition]
  rfl

end Program

namespace Experiment

variable {e e' : Experiment R} {host : Instruction R} {noise : List (NoiseSource R)}
  {place slot : Nat} {final : Bool}

theorem draw_of_readoutError {table : List (List R)}
    (h : e.apply (.readoutError [slot] table) final = (.ok (), e')) :
    exists value, e.source.choose (table.getD (bitAt e.machine.classical.memory slot).toNat []) =
        .ok (value, e'.source) ∧
      bitAt e'.machine.classical.memory slot = value.testBit 0 ∧
      forall other, other ≠ slot ->
        bitAt e'.machine.classical.memory other = bitAt e.machine.classical.memory other := by
  rcases apply_eq_ok h with ⟨hskip, _⟩ | ⟨_, hperform⟩
  · cases hskip
  · rcases Classical.applyReadout_eq_ok (applyReadout_of_perform rfl hperform) with
      ⟨current, row, value, hcurrent, hrow, hvalue, hrecord⟩
    have hbit : current = (bitAt e.machine.classical.memory slot).toNat :=
      (Except.ok.inj hcurrent).symm
    have hwritten := (Classical.record_eq_ok_iff.mp hrecord).1
    refine ⟨value, ?_, ?_, ?_⟩
    · change table[current]? = some row at hrow
      rw [← hbit, List.getD_eq_getElem?_getD, hrow]
      exact hvalue
    · exact (Classical.bitAt_writeBits hwritten (List.nodup_singleton slot) (i := 0) rfl).2
    · intro other hother
      exact Classical.bitAt_writeBits_of_not_mem hwritten fun hmem =>
        hother (List.mem_singleton.mp hmem)

variable (hkind : host.kind = .measure) (hcondition : host.condition = none)
include hkind hcondition

theorem reported_of_sources {sources : List (NoiseSource R)} {qubit : Nat}
    {here : List (List (Instruction R))} (hslot : host.memory[place]? = some slot)
    (h : sources.mapM (fun source => Program.noiseOn host place qubit source.model) = .ok here)
    (hrun : e.applyAll here.flatten final = (.ok (), e')) :
    NoiseModel.reported (sources.map NoiseSource.model) (bitAt e.machine.classical.memory slot)
        e.source = .ok (bitAt e'.machine.classical.memory slot, e'.source) ∧
      forall other, other ≠ slot ->
        bitAt e'.machine.classical.memory other = bitAt e.machine.classical.memory other := by
  induction sources generalizing e here with
  | nil =>
      cases h
      cases hrun
      exact ⟨rfl, fun _ _ => rfl⟩
  | cons source rest ih =>
      rw [List.mapM_cons] at h
      rcases bind_eq_ok_iff.mp h with ⟨first, hfirst, h⟩
      rcases bind_eq_ok_iff.mp h with ⟨others, hothers, h⟩
      cases h
      rw [List.map_cons]
      cases htable : source.model.readout? with
      | none =>
          rw [Program.noiseOn_of_not_readout hkind htable] at hfirst
          cases hfirst
          rw [NoiseModel.reported_of_not_readout htable]
          exact ih hothers hrun
      | some table =>
          rw [Program.noiseOn_of_readout hkind hcondition hslot htable] at hfirst
          cases hfirst
          rcases applyAll_cons_eq_ok_iff.mp hrun with ⟨next, hnext, hrun⟩
          rcases draw_of_readoutError hnext with ⟨value, hdrawn, hbit, hkept⟩
          rcases ih hothers hrun with ⟨hreported, hothers⟩
          rw [NoiseModel.reported_of_readout htable hdrawn, ← hbit]
          refine ⟨hreported, ?_⟩
          intro other hother
          rw [hothers other hother, hkept other hother]

omit hcondition in
theorem flatten_of_no_slot {sources : List (NoiseSource R)} {qubit : Nat}
    {here : List (List (Instruction R))} (hslot : host.memory[place]? = none)
    (h : sources.mapM (fun source => Program.noiseOn host place qubit source.model) = .ok here) :
    here.flatten = [] := by
  induction sources generalizing here with
  | nil =>
      cases h
      rfl
  | cons source rest ih =>
      rw [List.mapM_cons, Program.noiseOn_of_no_slot hkind hslot, ok_bind] at h
      rcases bind_eq_ok_iff.mp h with ⟨others, hothers, hhere⟩
      cases hhere
      change others.flatten = []
      exact ih hothers

theorem memory_of_sources {qubit : Nat} {here : List (List (Instruction R))}
    (h : (noise.filter fun source => source.qubit == qubit).mapM
      (fun source => Program.noiseOn host place qubit source.model) = .ok here)
    (hrun : e.applyAll here.flatten final = (.ok (), e')) :
    (forall slot, host.memory[place]? = some slot -> exists source,
      NoiseModel.reported (Program.modelsOn noise qubit) (bitAt e.machine.classical.memory slot)
        e.source = .ok (bitAt e'.machine.classical.memory slot, source)) ∧
      forall other, host.memory[place]? ≠ some other ->
        bitAt e'.machine.classical.memory other = bitAt e.machine.classical.memory other := by
  cases hslot : host.memory[place]? with
  | none =>
      rw [flatten_of_no_slot hkind hslot h] at hrun
      cases hrun
      constructor
      · intro slot hslot
        cases hslot
      · intro other _
        rfl
  | some slot =>
      rcases reported_of_sources hkind hcondition hslot h hrun with ⟨hreported, hkept⟩
      constructor
      · rintro slot' hslot'
        cases hslot'
        exact ⟨_, hreported⟩
      · intro other hother
        exact hkept other fun heq => hother (by rw [heq])

theorem memory_of_noiseAfter {qubits : List Nat} {added : List (Instruction R)}
    (hnodup : host.memory.Nodup) (h : Program.noiseAfter noise host place qubits = .ok added)
    (hrun : e.applyAll added final = (.ok (), e')) :
    (forall other, (forall i, i < qubits.length -> host.memory[place + i]? ≠ some other) ->
      bitAt e'.machine.classical.memory other = bitAt e.machine.classical.memory other) ∧
      forall i qubit slot, qubits[i]? = some qubit -> host.memory[place + i]? = some slot ->
        exists first rest u source, added = first ++ rest ∧
          e.applyAll first (final && rest.isEmpty) = (.ok (), u) ∧
          NoiseModel.reported (Program.modelsOn noise qubit)
            (bitAt e.machine.classical.memory slot) u.source =
              .ok (bitAt e'.machine.classical.memory slot, source) := by
  induction qubits generalizing place e added with
  | nil =>
      cases h
      cases hrun
      constructor
      · intro other _
        rfl
      · intro i qubit slot hqubit
        cases hqubit
  | cons qubit qubits ih =>
      rcases Program.noiseAfter_cons_eq_ok_iff.mp h with ⟨here, there, hhere, hthere, rfl⟩
      rcases applyAll_append_eq_ok_iff.mp hrun with ⟨u, hu, hlater⟩
      rcases memory_of_sources hkind hcondition hhere hu with ⟨hreported, hkept⟩
      rcases ih hthere hlater with ⟨hkeptLater, hreportedLater⟩
      -- The slots of the later qubits are others than the slot of this one.
      have hother : forall i slot, host.memory[place]? = some slot ->
          host.memory[place + 1 + i]? ≠ some slot := by
        intro i slot hslot hsame
        have hfar : place + 1 + i < host.memory.length := (List.getElem?_eq_some_iff.mp hsame).1
        exact List.nodup_iff_getElem?_ne_getElem?.mp hnodup place (place + 1 + i) (by omega) hfar
          (hslot.trans hsame.symm)
      constructor
      · intro other hother
        rw [hkeptLater other, hkept other]
        · exact hother 0 (Nat.succ_pos _)
        · intro i hi
          rw [Nat.add_assoc, Nat.add_comm 1 i]
          exact hother (i + 1) (Nat.succ_lt_succ hi)
      · intro i qubit' slot hqubit hslot
        cases i with
        | zero =>
            cases hqubit
            rcases hreported slot hslot with ⟨source, hsource⟩
            refine ⟨[], here.flatten ++ there, e, source, rfl, rfl, ?_⟩
            rw [hkeptLater slot fun i _ => hother i slot hslot]
            exact hsource
        | succ i =>
            have hslot' : host.memory[place + 1 + i]? = some slot := by
              rw [Nat.add_assoc, Nat.add_comm 1 i]
              exact hslot
            rcases hreportedLater i qubit' slot hqubit hslot' with
              ⟨first, rest, v, source, rfl, hv, hsource⟩
            have hbit := hkept slot fun hsame => hother i slot hsame hslot'
            rw [hbit] at hsource
            refine ⟨here.flatten ++ first, rest, v, source, ?_, ?_, hsource⟩
            · rw [List.append_assoc]
            · rw [isEmpty_append_flag] at hu
              exact applyAll_append_eq_ok_iff.mpr ⟨u, hu, hv⟩

theorem copies_of_measure {i slot bit : Nat} (hmemory : host.memory.Nodup)
    (hregisters : host.registers.Nodup) (h : e.apply host final = (.ok (), e'))
    (hslot : host.memory[i]? = some slot) (hbit : host.registers[i]? = some bit) :
    bitAt e'.machine.classical.memory slot = bitAt e'.machine.classical.register bit := by
  rcases apply_eq_ok h with ⟨hskip, _⟩ | ⟨_, hperform⟩
  · unfold Classical.allows at hskip
    rw [hcondition] at hskip
    cases hskip
  · rcases exists_record_of_perform_measure hkind hperform with ⟨outcome, hrecord⟩
    rcases Classical.record_eq_ok_iff.mp hrecord with ⟨hbits, hbits'⟩
    rw [(Classical.bitAt_writeBits hbits hmemory hslot).2,
      (Classical.bitAt_writeBits hbits' hregisters hbit).2]

theorem reported_of_noiseAfter {i slot : Nat} {added : List (Instruction R)}
    (hmemory : host.memory.Nodup)
    (h : Program.noiseAfter noise host 0 host.qubits = .ok added)
    (hrun : e.applyAll added final = (.ok (), e')) (hslot : host.memory[i]? = some slot) :
    exists first rest u source, added = first ++ rest ∧
      e.applyAll first (final && rest.isEmpty) = (.ok (), u) ∧
      NoiseModel.reported (Program.modelsAt noise host i)
        (bitAt e.machine.classical.memory slot) u.source =
          .ok (bitAt e'.machine.classical.memory slot, source) := by
  rcases memory_of_noiseAfter hkind hcondition hmemory h hrun with ⟨hkept, hreported⟩
  unfold Program.modelsAt
  cases hqubit : host.qubits[i]? with
  | some qubit =>
      exact hreported i qubit slot hqubit (by rw [Nat.zero_add]; exact hslot)
  | none =>
      -- No qubit is listed for this slot, so no noise addresses it.
      refine ⟨[], added, e, e.source, rfl, rfl, ?_⟩
      rw [hkept slot]
      · rfl
      · intro j hj hsame
        rw [Nat.zero_add] at hsame
        have hfar : host.qubits.length ≤ i := List.getElem?_eq_none_iff.mp hqubit
        have hi : i < host.memory.length := (List.getElem?_eq_some_iff.mp hslot).1
        exact List.nodup_iff_getElem?_ne_getElem?.mp hmemory j i (by omega) hi
          (hsame.trans hslot.symm)

end Experiment

/-!
## The two copies
-/

/-- After an unconditional measurement and its noise the register holds what was measured
and the memory what the readout errors report of it, so that the copies of a bit are equal
exactly where what is reported is what was measured. -/
theorem Program.copies_agree_iff {program : Program R} {ops : List (Instruction R)}
    {start : Experiment R} {final : Bool} (hlowered : program.lowered = .ok ops)
    (hrun : (start.applyAll ops final).1 = .ok ()) {front back : List (Instruction R)}
    {host : Instruction R} (hops : program.ops = front ++ host :: back)
    (hkind : host.kind = .measure) (hcondition : host.condition = none)
    (hmemory : host.memory.Nodup) (hregisters : host.registers.Nodup) :
    exists before added after e h f, withNoise program.noise front = .ok before ∧
      noiseAfter program.noise host 0 host.qubits = .ok added ∧
      withNoise program.noise back = .ok after ∧ ops = before ++ host :: (added ++ after) ∧
      start.applyAll before false = (.ok (), e) ∧
      e.apply host (final && (added ++ after).isEmpty) = (.ok (), h) ∧
      h.applyAll added (final && after.isEmpty) = (.ok (), f) ∧
      forall i slot bit, host.memory[i]? = some slot -> host.registers[i]? = some bit ->
        exists first rest u reading source, added = first ++ rest ∧
          h.applyAll first (final && after.isEmpty && rest.isEmpty) = (.ok (), u) ∧
          NoiseModel.reported (modelsAt program.noise host i)
            (bitAt h.machine.classical.register bit) u.source = .ok (reading, source) ∧
          bitAt f.machine.classical.memory slot = reading ∧
          bitAt f.machine.classical.register bit = bitAt h.machine.classical.register bit ∧
          (bitAt f.machine.classical.memory slot = bitAt f.machine.classical.register bit ↔
            reading = bitAt h.machine.classical.register bit) := by
  unfold lowered at hlowered
  rw [hops] at hlowered
  rcases withNoise_split hlowered with ⟨before, added, after, hbefore, hadded, hafter, rfl⟩
  rcases hresult : start.applyAll (before ++ host :: (added ++ after)) final with ⟨outcome, last⟩
  rw [hresult] at hrun
  cases hrun
  rcases Experiment.applyAll_append_eq_ok_iff.mp hresult with ⟨e, he, hresult⟩
  rcases Experiment.applyAll_cons_eq_ok_iff.mp hresult with ⟨h, hh, hresult⟩
  rcases Experiment.applyAll_append_eq_ok_iff.mp hresult with ⟨f, hf, _⟩
  rw [List.isEmpty_cons, Bool.and_false] at he
  refine ⟨before, added, after, e, h, f, hbefore, hadded, hafter, rfl, he, hh, hf, ?_⟩
  intro i slot bit hslot hbit
  have hregister := Experiment.register_of_noises (isNoiseOf_of_noiseAfter hadded) hf
  have hmeasured :=
    Experiment.copies_of_measure hkind hcondition hmemory hregisters hh hslot hbit
  rcases Experiment.reported_of_noiseAfter hkind hcondition hmemory hadded hf hslot with
    ⟨first, rest, u, source, hsplit, hu, hreading⟩
  rw [hmeasured] at hreading
  refine ⟨first, rest, u, _, source, hsplit, hu, hreading, rfl, by rw [hregister], ?_⟩
  rw [hregister]

/-- A measurement into the memory and the register, and a readout error that always reports
the other value. -/
noncomputable def Program.misread : Program ℝ :=
  { qubits := 1
    memory := 1
    registers := 1
    ops := [(Instruction.measure [0] [0]).withRegisters [0]]
    noise := [⟨0, ⟨.readoutError, 1⟩⟩] }

theorem NoiseModel.choose_misread (source : Source) :
    source.choose [(1 : ℝ) - 1, 1] = .ok (1, source.advance) := by
  apply choose_of_single
  · exact one_pos
  · intro i hi
    rcases i with _ | _ | i
    · simp
    · exact absurd rfl hi
    · simp

noncomputable def Program.misreadMeasure : Instruction ℝ :=
  (Instruction.measure [0] [0]).withRegisters [0]

noncomputable def Program.misreadReport : Instruction ℝ :=
  Instruction.readoutError [0] [[1 - 1, 1], [1, 1 - 1]]

theorem Program.exists_run_misread :
    exists h f, (Experiment.oneQubit ⟨[false], [false]⟩).apply misreadMeasure false =
        (.ok (), h) ∧ h.machine.classical = ⟨[false], [false]⟩ ∧
      h.apply misreadReport false = (.ok (), f) ∧ f.machine.classical = ⟨[true], [false]⟩ := by
  have hmeasured : exists h, (Experiment.oneQubit ⟨[false], [false]⟩).apply misreadMeasure false =
      (.ok (), h) ∧ h.machine.classical = ⟨[false], [false]⟩ :=
    Experiment.exists_measure_oneQubit rfl rfl rfl rfl
  rcases hmeasured with ⟨h, hh, hbits⟩
  have hreadout : h.machine.classical.applyReadout misreadReport h.source =
      .ok (⟨[true], [false]⟩, h.source.advance) := by
    rw [hbits]
    change (h.source.choose [(1 : ℝ) - 1, 1] >>= _) = _
    rw [NoiseModel.choose_misread]
    rfl
  refine ⟨h, { h with machine := { h.machine with classical := ⟨[true], [false]⟩ }
                      source := h.source.advance }, hh, hbits, ?_, rfl⟩
  change h.draw (Except.map _ (h.machine.classical.applyReadout misreadReport h.source)) = _
  rw [hreadout]
  rfl

theorem Program.copies_agree_iff_misread :
    exists (measured reported : Instruction ℝ) (f : Experiment ℝ),
      Program.misread.lowered = .ok [measured, reported] ∧
      (Experiment.oneQubit ⟨[false], [false]⟩).applyAll [measured, reported] false = (.ok (), f) ∧
      measured.memory = [0] ∧ measured.registers = [0] ∧
      bitAt f.machine.classical.memory 0 = true ∧
      bitAt f.machine.classical.register 0 = false := by
  have hlowered : misread.lowered = .ok [misreadMeasure, misreadReport] := rfl
  have hops : misread.ops = [] ++ misreadMeasure :: [] := rfl
  rcases exists_run_misread with ⟨h, f, hh, hbits, hf, _⟩
  have hrun : (Experiment.oneQubit ⟨[false], [false]⟩).applyAll [misreadMeasure, misreadReport]
      false = (.ok (), f) :=
    Experiment.applyAll_cons_eq_ok_iff.mpr ⟨_, hh,
      Experiment.applyAll_cons_eq_ok_iff.mpr ⟨_, hf, rfl⟩⟩
  refine ⟨_, _, f, hlowered, hrun, rfl, rfl, ?_⟩
  rcases Program.copies_agree_iff hlowered (congrArg Prod.fst hrun) hops rfl rfl (by decide)
    (by decide) with
    ⟨before, added, after, e, h', f', hbefore, hadded, hafter, _, he, hh', hf', hcopies⟩
  cases hbefore
  cases hadded
  cases hafter
  cases he
  cases hh'.symm.trans hh
  cases hf'.symm.trans (Experiment.applyAll_cons_eq_ok_iff.mpr ⟨_, hf, rfl⟩)
  rcases hcopies 0 0 0 rfl rfl with
    ⟨_, _, u, reading, source, _, _, hreading, hmemory, hregister, _⟩
  rw [hbits] at hregister hreading
  change NoiseModel.reported [⟨.readoutError, 1⟩] false u.source = _ at hreading
  rw [NoiseModel.reported_of_readout rfl (NoiseModel.choose_misread u.source)] at hreading
  cases hreading
  exact ⟨hmemory, hregister⟩

/-- The register keeps the measured bit while the memory has the reported one. -/
theorem Program.misread_copies_differ :
    exists (measured : Instruction ℝ) (ops : List (Instruction ℝ)) (start f : Experiment ℝ),
      misread.ops = [measured] ∧ measured.kind = .measure ∧ measured.condition = none ∧
      measured.memory = [0] ∧ measured.registers = [0] ∧
      misread.lowered = .ok ops ∧ misread.begin .standard 0 = .ok start ∧
      start.applyAll ops false = (.ok (), f) ∧
      bitAt f.machine.classical.memory 0 ≠ bitAt f.machine.classical.register 0 := by
  rcases exists_run_misread with ⟨h, f, hh, _, hf, hbits⟩
  refine ⟨misreadMeasure, [misreadMeasure, misreadReport],
    Experiment.oneQubit ⟨[false], [false]⟩, f, rfl, rfl, rfl, rfl, rfl, rfl, rfl,
    Experiment.applyAll_cons_eq_ok_iff.mpr ⟨_, hh,
      Experiment.applyAll_cons_eq_ok_iff.mpr ⟨_, hf, rfl⟩⟩, ?_⟩
  rw [hbits]
  decide

end MixedState
