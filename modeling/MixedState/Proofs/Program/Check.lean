import MixedState.Program.Format
import MixedState.Proofs.Command.Shots
import MixedState.Proofs.Machine.Refusals
import MixedState.Proofs.Noise.Lowering

/-!
# Checked programs fit the machine

The qubits of a program are checked once, when it is read.  Its noise goes right behind the
instructions that it belongs to, acts on their qubits and slots, and can always be put in;
and no run of the program is refused for where an instruction acts.
-/

namespace MixedState

/-!
## The check
-/

namespace Program

variable {R : Type} {n : Nat}

theorem strayInstruction?_eq_none_iff (place : Nat) {ops : List (Instruction R)} :
    strayInstruction? n place ops = none ↔
      forall op, op ∈ ops -> forall q, q ∈ op.qubits -> q < n := by
  induction ops generalizing place with
  | nil =>
      exact ⟨fun _ op hop => absurd hop List.not_mem_nil, fun _ => rfl⟩
  | cons op rest ih =>
      rw [strayInstruction?, List.forall_mem_cons, ← ih (place + 1)]
      cases hstray : op.qubits.find? fun q => n ≤ q with
      | some q =>
          have hpast : n ≤ q := by simpa using List.find?_some hstray
          refine ⟨nofun, fun h => absurd (h.1 q (List.mem_of_find?_eq_some hstray)) ?_⟩
          omega
      | none =>
          have hinside : forall q, q ∈ op.qubits -> q < n := by
            simpa using List.find?_eq_none.mp hstray
          exact ⟨fun h => ⟨hinside, h⟩, fun h => h.2⟩

theorem strayNoise?_eq_none_iff {noise : List (NoiseSource Float)} :
    strayNoise? n noise = none ↔ forall source, source ∈ noise -> source.qubit < n := by
  unfold strayNoise?
  simp

theorem check_eq_ok_iff {program program' : Program Float} :
    program.check = .ok program' ↔ program' = program ∧
      (forall op, op ∈ program.ops -> forall q, q ∈ op.qubits -> q < program.qubits) ∧
      forall source, source ∈ program.noise -> source.qubit < program.qubits := by
  rw [← strayInstruction?_eq_none_iff 0, ← strayNoise?_eq_none_iff]
  unfold check
  cases strayInstruction? program.qubits 0 program.ops <;>
    cases strayNoise? program.qubits program.noise <;> simp [eq_comm]

theorem check_of_ofText {text : String} {program : Program Float} (h : ofText text = .ok program) :
    program.check = .ok program := by
  unfold ofText at h
  split at h
  · rcases check_eq_ok_iff.mp h with ⟨rfl, _⟩
    exact h
  · cases h

end Program

/-!
## The noise of an instruction
-/

variable {R : Type} [Scalar R]

/-- What a source puts behind a host that has its qubit in this place: a channel behind a
gate, and a readout error behind a measurement that writes a slot for the qubit. -/
def NoiseSource.after? (source : NoiseSource R) (host : Instruction R) (place : Nat) :
    Option (Instruction R) :=
  match host.kind, source.model.krausOperators?, source.model.readout? with
  | .gate, some operators, _ =>
      some { Instruction.ofKind .kraus with
        qubits := [source.qubit], matrices := operators, condition := host.condition }
  | .measure, _, some table =>
      host.memory[place]?.map fun slot =>
        { Instruction.ofKind .readoutError with
          memory := [slot], readout := table, condition := host.condition }
  | _, _, _ => none

def Program.addedAt (noise : List (NoiseSource R)) (host : Instruction R) (qubit place : Nat) :
    List (Instruction R) :=
  (noise.filter fun source => source.qubit == qubit).filterMap fun source =>
    source.after? host place

def Program.added (noise : List (NoiseSource R)) (host : Instruction R) : List (Instruction R) :=
  host.qubits.zipIdx.flatMap fun entry => addedAt noise host entry.1 entry.2

namespace Program

theorem noiseOn_eq (source : NoiseSource R) (host : Instruction R) (place : Nat) :
    noiseOn host place source.qubit source.model = .ok (source.after? host place).toList := by
  rcases source with ⟨qubit, kind, strength⟩
  unfold noiseOn NoiseSource.after?
  dsimp only
  cases hkind : host.kind with
  | gate =>
      cases kind with
      | readoutError =>
          rfl
      | _ =>
          cases hcondition : host.condition <;> rfl
  | measure =>
      cases kind with
      | readoutError =>
          cases host.memory[place]? <;> cases hcondition : host.condition <;> rfl
      | _ =>
          rfl
  | _ =>
      cases kind <;> rfl

theorem mapM_noiseOn (host : Instruction R) (place qubit : Nat) (noise : List (NoiseSource R)) :
    ((noise.filter fun source => source.qubit == qubit).mapM fun source =>
      noiseOn host place qubit source.model) =
      .ok ((noise.filter fun source => source.qubit == qubit).map fun source =>
        (source.after? host place).toList) := by
  induction noise with
  | nil =>
      rfl
  | cons source rest ih =>
      by_cases hqubit : source.qubit = qubit
      · have hsource := noiseOn_eq source host place
        rw [hqubit] at hsource
        rw [List.filter_cons, if_pos (beq_iff_eq.mpr hqubit), List.mapM_cons, hsource, ok_bind, ih]
        rfl
      · rw [List.filter_cons, if_neg (mt beq_iff_eq.mp hqubit), ih]

theorem noiseAfter_eq (noise : List (NoiseSource R)) (host : Instruction R) (place : Nat)
    (qubits : List Nat) :
    noiseAfter noise host place qubits =
      .ok ((qubits.zipIdx place).flatMap fun entry => addedAt noise host entry.1 entry.2) := by
  induction qubits generalizing place with
  | nil =>
      rfl
  | cons qubit rest ih =>
      rw [noiseAfter, mapM_noiseOn, ok_bind, ih, ok_bind, List.zipIdx_cons, List.flatMap_cons,
        addedAt, List.filterMap_eq_flatMap_toList]
      rfl

theorem withNoise_eq (noise : List (NoiseSource R)) (ops : List (Instruction R)) :
    withNoise noise ops = .ok (ops.flatMap fun op => op :: Program.added noise op) := by
  induction ops with
  | nil =>
      rfl
  | cons op rest ih =>
      rw [withNoise, noiseAfter_eq, ok_bind, ih, ok_bind, List.flatMap_cons]
      rfl

end Program

/-!
## Noise fits its host
-/

/-- A channel on one qubit of a gate, or an error of one slot that a measurement writes, under
the condition of the host. -/
inductive Instruction.IsNoiseOn (host : Instruction R) : Instruction R -> Prop
  | channel {qubit : Nat} {operators : List (Mat R)} (hkind : host.kind = .gate)
      (hqubit : qubit ∈ host.qubits) (hne : operators ≠ [])
      (hshapes : forall u, u ∈ operators -> u.rows = 2 ∧ u.cols = 2) :
      IsNoiseOn host { Instruction.ofKind .kraus with
        qubits := [qubit], matrices := operators, condition := host.condition }
  | readout {slot : Nat} {p : R} (hkind : host.kind = .measure) (hslot : slot ∈ host.memory) :
      IsNoiseOn host { Instruction.ofKind .readoutError with
        memory := [slot], readout := [[1 - p, p], [p, 1 - p]], condition := host.condition }

theorem NoiseModel.shapes_krausOperators {model : NoiseModel R} {operators : List (Mat R)}
    (h : model.krausOperators? = some operators) :
    operators ≠ [] ∧ forall u, u ∈ operators -> u.rows = 2 ∧ u.cols = 2 := by
  rcases model with ⟨kind, strength⟩
  cases kind with
  | readoutError =>
      cases h
  | _ =>
      cases h
      exact ⟨List.cons_ne_nil _ _, by simp [Mat.two]⟩

theorem NoiseModel.rows_readout {model : NoiseModel R} {table : List (List R)}
    (h : model.readout? = some table) :
    table = [[1 - model.strength, model.strength], [model.strength, 1 - model.strength]] := by
  rcases model with ⟨kind, strength⟩
  cases kind with
  | readoutError =>
      cases h
      rfl
  | _ =>
      cases h

theorem NoiseSource.isNoiseOn_after? {source : NoiseSource R} {host added : Instruction R}
    {place : Nat} (hqubit : source.qubit ∈ host.qubits)
    (h : source.after? host place = some added) : host.IsNoiseOn added := by
  unfold after? at h
  split at h
  · next operators _ hkind hoperators =>
      cases h
      rcases NoiseModel.shapes_krausOperators hoperators with ⟨hne, hshapes⟩
      exact .channel hkind hqubit hne hshapes
  · next table hkind htable =>
      rcases Option.map_eq_some_iff.mp h with ⟨slot, hslot, rfl⟩
      rw [NoiseModel.rows_readout htable]
      exact .readout hkind (List.mem_of_getElem? hslot)
  · cases h

namespace Program

variable {noise : List (NoiseSource R)} {host op : Instruction R}

theorem isNoiseOn_of_mem_added (h : op ∈ added noise host) : host.IsNoiseOn op := by
  rcases List.mem_flatMap.mp h with ⟨⟨qubit, place⟩, hentry, hop⟩
  rcases List.mem_filterMap.mp hop with ⟨source, hsource, hafter⟩
  have hqubit : source.qubit = qubit := beq_iff_eq.mp (List.mem_filter.mp hsource).2
  refine source.isNoiseOn_after? ?_ hafter
  rw [hqubit]
  exact List.fst_mem_of_mem_zipIdx hentry

end Program

theorem Instruction.IsNoiseOn.mem_qubits {host op : Instruction R} (h : host.IsNoiseOn op)
    {q : Nat} (hq : q ∈ op.qubits) : q ∈ host.qubits := by
  cases h with
  | channel hkind hqubit hne hshapes =>
      rw [List.mem_singleton.mp hq]
      exact hqubit
  | readout hkind hslot =>
      cases hq

/-!
## Runs
-/

def Complaint.isMisfit : Complaint -> Bool
  | .refusal cause | .instruction _ _ cause => cause.isMisfit
  | _ => false

theorem Experiment.isMisfit_runInstructions {e : Experiment R} {n k : Nat}
    (h : e.machine.HasShape n n k) (final : Bool) (place : Nat) {ops : List (Instruction R)}
    (hqubits : forall op, op ∈ ops -> forall q, q ∈ op.qubits -> q < n) {complaint : Complaint}
    (hrun : runInstructions e final place ops = .error complaint) : complaint.isMisfit = false := by
  -- Only the last one may take the state out, so that all of them find a full register.
  induction ops generalizing e place with
  | nil =>
      cases hrun
  | cons op rest ih =>
      have hfit := noMisfit_apply h (hqubits op List.mem_cons_self) (final && rest.isEmpty)
      have hshape := hasShape_apply h op
      unfold runInstructions at hrun
      rcases happly : e.apply op (final && rest.isEmpty) with ⟨outcome, left⟩
      rw [happly] at hrun hfit
      cases outcome with
      | ok done =>
          cases rest with
          | nil =>
              cases hrun
          | cons next rest =>
              rw [List.isEmpty_cons, Bool.and_false] at happly
              rw [happly] at hshape
              exact ih hshape (place + 1)
                (fun op hop => hqubits op (List.mem_cons_of_mem _ hop)) hrun
      | error fault =>
          cases fault with
          | refused cause =>
              cases hrun
              exact hfit cause rfl
          | crash =>
              cases hrun
              rfl

theorem Program.noRefusal_begin (program : Program R) (settings : Settings R) (seed : Nat) :
    NoRefusal (program.begin settings seed) := by
  simp [begin, Machine.start, Store.resize, Store.reset, Store.entryCount, Machine.startClassical,
    Classical.zeros]

theorem isMisfit_runProgram {program : Program R} {ops : List (Instruction R)}
    (hqubits : forall op, op ∈ ops -> forall q, q ∈ op.qubits -> q < program.qubits)
    (settings : Settings R) (seed shots : Nat) {complaint : Complaint}
    (h : runProgram program ops settings seed shots = .error complaint) :
    complaint.isMisfit = false := by
  cases hstart : program.begin settings seed with
  | error fault =>
      have hcomplaint : complaint = .ofFault fault := by
        unfold runProgram at h
        rw [hstart] at h
        cases h
        rfl
      cases fault with
      | refused cause =>
          exact absurd hstart (program.noRefusal_begin settings seed cause)
      | crash =>
          rw [hcomplaint]
          rfl
  | ok start =>
      rcases Program.hasShape_begin hstart with ⟨hn, hshape⟩
      cases hrun : runInstructions start (shots == 0) 0 ops with
      | error early =>
          rw [runProgram_of_error hstart hrun] at h
          cases h
          exact Experiment.isMisfit_runInstructions hshape _ 0 hqubits hrun
      | ok e =>
          rcases Nat.eq_zero_or_pos shots with rfl | hshots
          · rw [runProgram_of_ok hstart hrun rfl] at h
            cases h
          · have hfull : e.machine.HasShape program.qubits program.qubits 0 :=
              Experiment.hasShape_of_runInstructions hshape
                (by rw [← hrun, beq_eq_false_iff_ne.mpr (Nat.ne_of_gt hshots)])
            rcases Nat.lt_or_ge (shots * 8) bufferLimit with hroom | hroom
            · rcases Experiment.exists_countShots hfull hn hshots hroom with ⟨counts, hcounts, _⟩
              rw [runProgram_of_ok hstart hrun hcounts] at h
              cases h
            · rw [runProgram_of_le hstart hrun hfull hroom] at h
              cases h
              rfl

namespace Program

variable {program : Program Float} {text : String}

theorem qubits_lt_of_mem_withNoise {op : Instruction Float} (h : program.check = .ok program)
    (hop : op ∈ program.ops.flatMap fun host => host :: added program.noise host) :
    forall q, q ∈ op.qubits -> q < program.qubits := by
  rcases check_eq_ok_iff.mp h with ⟨_, hops, _⟩
  rcases List.mem_flatMap.mp hop with ⟨host, hhost, hop⟩
  rcases List.mem_cons.mp hop with rfl | hadded
  · exact hops op hhost
  · exact fun q hq => hops host hhost q ((isNoiseOn_of_mem_added hadded).mem_qubits hq)

/-- Noise can be put into a program that passed the check: the instructions are those of the
program, each followed by noise that fits its qubits and slots, and all of them name qubits of
the program only.  No run complains of a qubit out of range, of a qubit or a state of a split
register, or of noise, whichever of the instructions take place. -/
theorem runs_without_misfit (h : ofText text = .ok program) :
    exists ops, program.lowered = .ok ops ∧
      ops = (program.ops.flatMap fun host => host :: added program.noise host) ∧
      (forall host, host ∈ program.ops ->
        forall op, op ∈ added program.noise host -> host.IsNoiseOn op) ∧
      (forall op, op ∈ ops -> forall q, q ∈ op.qubits -> q < program.qubits) ∧
      forall settings seed shots complaint,
        runProgram program ops settings seed shots = .error complaint ->
          complaint.isMisfit = false := by
  have hqubits : forall op,
      op ∈ program.ops.flatMap (fun host => host :: added program.noise host) ->
        forall q, q ∈ op.qubits -> q < program.qubits := fun op hop =>
    qubits_lt_of_mem_withNoise (check_of_ofText h) hop
  exact ⟨_, withNoise_eq program.noise program.ops, rfl,
    fun host _ op hop => isNoiseOn_of_mem_added hop, hqubits,
    fun settings seed shots complaint hrun => isMisfit_runProgram hqubits settings seed shots hrun⟩

def noisyText : String :=
  "\x7b\"num_qubits\":2,\"ops\":[\x7b\"type\":\"gate\",\"name\":\"cx\",\"qubits\":[0,1]\x7d,
    \x7b\"type\":\"measure\",\"name\":\"m\",\"qubits\":[0],\"memory\":[0]\x7d],
    \"noise\":[\x7b\"qubit\":1,\"model\":\"bit_flip\",\"p\":0.1\x7d,
    \x7b\"qubit\":0,\"model\":\"readout_error\",\"p\":0.02\x7d]\x7d"

theorem runs_without_misfit_noisy : exists program ops, ofText noisyText = .ok program ∧
    program.lowered = .ok ops ∧
    ops.map Instruction.kind = [.gate, .kraus, .measure, .readoutError] ∧
    ops.map Instruction.qubits = [[0, 1], [1], [0], []] ∧
    forall settings seed shots complaint,
      runProgram program ops settings seed shots = .error complaint ->
        complaint.isMisfit = false := by
  have hread : (ofText noisyText).toOption.any (fun program =>
      program.lowered.toOption.any fun ops =>
        decide (ops.map Instruction.kind = [.gate, .kraus, .measure, .readoutError] ∧
          ops.map Instruction.qubits = [[0, 1], [1], [0], []])) = true := by
    decide +kernel
  cases hprogram : ofText noisyText with
  | error error =>
      rw [hprogram] at hread
      cases hread
  | ok program =>
      rcases runs_without_misfit hprogram with ⟨ops, hops, _, _, _, hruns⟩
      rw [hprogram, Except.toOption, Option.any_some, hops, Except.toOption,
        Option.any_some] at hread
      rcases of_decide_eq_true hread with ⟨hkinds, hqubits⟩
      exact ⟨program, ops, rfl, hops, hkinds, hqubits, hruns⟩

end Program

end MixedState
