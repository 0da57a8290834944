import MixedState.Machine.Run
import MixedState.Proofs.Partition.Gates

/-!
# Runs on a chunk

A run of instructions on one chunk of a register, when it ends, leaves the chunk of
what the same run makes of the whole register.
-/

namespace MixedState

/-- An instruction on distinct qubits that evolves the state alike on every chunk, or
leaves it.  The controlled phase is none: its factor may not cancel its conjugate. -/
structure Instruction.Evolves (op : Instruction ℝ) : Prop where
  nodup : op.qubits.Nodup
  kind : op.kind ∈ [Kind.gate, .diagonal, .matrix, .kraus, .superop, .reset, .bfunc, .barrier,
    .errorLocation, .mark, .jump]
  name : op.kind = .gate -> op.name ≠ "cp" ∧ op.name ≠ "cu1"

namespace Experiment

variable {place : Place} {whole chunk chunk' : Experiment ℝ} {op : Instruction ℝ}

theorem evolve_eq_ok_iff {e e' : Experiment ℝ} {result : Outcome (Machine ℝ)} :
    e.evolve result = (.ok (), e') ↔
      exists m, result = .ok m ∧ e' = { e with machine := m } := by
  cases result with
  | error fault =>
      constructor
      · intro h
        cases h
      · rintro ⟨m, hm, _⟩
        cases hm
  | ok machine =>
      constructor
      · intro h
        cases h
        exact ⟨machine, rfl, rfl⟩
      · rintro ⟨m, hm, rfl⟩
        cases hm
        rfl

theorem evolve_follows {result result' : Outcome (Machine ℝ)}
    (hstep : forall machine', result = .ok machine' ->
      exists whole', result' = .ok whole' ∧ Machine.IsChunkOf place machine' whole')
    (h : chunk.evolve result = (.ok (), chunk')) :
    exists whole', whole.evolve result' = (.ok (), whole') ∧
      Machine.IsChunkOf place chunk'.machine whole'.machine := by
  rcases evolve_eq_ok_iff.mp h with ⟨machine', hresult, rfl⟩
  rcases hstep machine' hresult with ⟨wholeMachine, hwhole, hrel⟩
  exact ⟨{ whole with machine := wholeMachine }, evolve_eq_ok_iff.mpr ⟨_, hwhole, rfl⟩, hrel⟩

theorem perform_follows (h : Machine.IsChunkOf place chunk.machine whole.machine)
    (hsmall : 4 * place.register < wordBits) (hop : op.Evolves)
    (hqs : forall q, q ∈ op.qubits -> q < chunk.machine.width)
    (hstep : chunk.perform op false = (.ok (), chunk')) :
    exists whole', whole.perform op false = (.ok (), whole') ∧
      Machine.IsChunkOf place chunk'.machine whole'.machine := by
  have hnodup := hop.nodup
  have hname := hop.name
  have hkind := hop.kind
  simp only [List.mem_cons, List.not_mem_nil, or_false] at hkind
  unfold perform at hstep ⊢
  rcases hkind with hkind | hkind | hkind | hkind | hkind | hkind | hkind | hmarker
  · rw [hkind] at hstep ⊢
    exact evolve_follows (fun _ => h.applyGate hnodup hqs (hname hkind)) hstep
  · rw [hkind] at hstep ⊢
    exact evolve_follows (fun _ => h.applyDiagonal hnodup hqs) hstep
  · rw [hkind] at hstep ⊢
    dsimp only at hstep ⊢
    cases hmatrices : op.matrices with
    | nil =>
        rw [hmatrices] at hstep
        cases hstep
    | cons matrix rest =>
        rw [hmatrices] at hstep
        exact evolve_follows (fun _ => h.applyMatrix hnodup hqs) hstep
  · rw [hkind] at hstep ⊢
    exact evolve_follows (fun _ => h.applyKraus hsmall hnodup hqs) hstep
  · rw [hkind] at hstep ⊢
    dsimp only at hstep ⊢
    cases hmatrices : op.matrices with
    | nil =>
        rw [hmatrices] at hstep
        cases hstep
    | cons matrix rest =>
        rw [hmatrices] at hstep
        exact evolve_follows (fun _ => h.applySuperop hsmall hnodup hqs) hstep
  · rw [hkind] at hstep ⊢
    exact evolve_follows (fun _ => h.applyReset hsmall hnodup hqs) hstep
  · rw [hkind] at hstep ⊢
    refine evolve_follows (fun machine' hmachine => ?_) hstep
    rw [h.classical]
    cases hbits : chunk.machine.classical.applyBfunc op with
    | error fault =>
        rw [hbits] at hmachine
        cases hmachine
    | ok bits =>
        rw [hbits] at hmachine
        cases hmachine
        exact ⟨_, rfl, { h with classical := rfl }⟩
  · rcases hmarker with hkind | hkind | hkind | hkind
    all_goals
      rw [hkind] at hstep ⊢
      cases hstep
      exact ⟨whole, rfl, h⟩

theorem apply_follows (h : Machine.IsChunkOf place chunk.machine whole.machine)
    (hsmall : 4 * place.register < wordBits) (hop : op.Evolves)
    (hstep : chunk.apply op false = (.ok (), chunk')) :
    exists whole', whole.apply op false = (.ok (), whole') ∧
      Machine.IsChunkOf place chunk'.machine whole'.machine := by
  unfold apply at hstep ⊢
  rw [h.classical, h.width]
  split at hstep
  · next hskip =>
      cases hstep
      rw [if_pos hskip]
      exact ⟨whole, rfl, h⟩
  · next hrun =>
      rw [if_neg hrun]
      cases hfind : op.qubits.find? fun q => chunk.machine.width ≤ q with
      | some qubit =>
          rw [hfind] at hstep
          cases hstep
      | none =>
          rw [hfind] at hstep
          refine perform_follows h hsmall hop (fun q hq => ?_) hstep
          have hout := List.find?_eq_none.mp hfind q hq
          simpa using hout

theorem applyAll_follows {ops : List (Instruction ℝ)}
    (h : Machine.IsChunkOf place chunk.machine whole.machine)
    (hsmall : 4 * place.register < wordBits) (hops : forall op, op ∈ ops -> op.Evolves)
    (hrun : chunk.applyAll ops false = (.ok (), chunk')) :
    exists whole', whole.applyAll ops false = (.ok (), whole') ∧
      Machine.IsChunkOf place chunk'.machine whole'.machine := by
  -- What is left of the run starts from related machines again.
  induction ops generalizing chunk whole with
  | nil =>
      cases hrun
      exact ⟨whole, rfl, h⟩
  | cons op rest ih =>
      rcases List.forall_mem_cons.mp hops with ⟨hop, hrest⟩
      unfold applyAll at hrun ⊢
      rw [Bool.false_and] at hrun ⊢
      cases hstep : chunk.apply op false with
      | mk outcome middle =>
          rw [hstep] at hrun
          cases outcome with
          | error fault =>
              cases hrun
          | ok done =>
              rcases apply_follows h hsmall hop hstep with ⟨wholeMiddle, hwhole, hrel⟩
              rw [hwhole]
              exact ih hrel hrest hrun

end Experiment

/-!
## From a chunk of a register to a chunk of its evolution
-/

theorem IsChunk.isChunkOf {N L k : Nat} {full part : Buffer ℝ} (hL : L < N)
    (hN : 2 * N < wordBits) (hk : k < twoPow (2 * (N - L)))
    (h : IsChunk ⟨N, L, k⟩ full part) (whole : Machine ℝ) (hwidth : whole.width = N)
    (hqubits : whole.store.qubits = N) (hdata : whole.store.data = full) :
    Machine.IsChunkOf ⟨N, L, k⟩
      { Machine.ofChunk ⟨L, k, part⟩ N with classical := whole.classical } whole := by
  have hmax : max N L = N := Nat.max_eq_left (Nat.le_of_lt hL)
  have hplace : (⟨max N L, L, k⟩ : Place) = ⟨N, L, k⟩ := by
    rw [hmax]
  constructor
  · exact hplace
  · change Place.Valid ⟨max N L, L, k⟩
    rw [hplace]
    exact ⟨hL, hN, hk⟩
  · rw [hwidth]
    exact hmax.symm
  · rw [hqubits]
    exact hmax.symm
  · rfl
  · change IsChunk ⟨max N L, L, k⟩ whole.store.data part
    rw [hplace, hdata]
    exact h

theorem Store.ofChunk_eq_ok {L k : Nat} {part : Buffer ℝ} (hL : 2 * L < wordBits)
    (hsize : part.size = twoPow (2 * L)) : Store.ofChunk L k part = .ok ⟨L, k, part⟩ := by
  unfold Store.ofChunk
  rw [checkedShift_of_lt hL, ok_bind, if_pos hsize]
  rfl

theorem exists_chunk {N L k : Nat} {full : Buffer ℝ} (hplace : Place.Valid ⟨N, L, k⟩)
    (hfull : full.size = twoPow (2 * N)) :
    exists part, extractChunk full ⟨N, L, k⟩ = .ok part ∧
      Store.ofChunk L k part = .ok ⟨L, k, part⟩ ∧ IsChunk ⟨N, L, k⟩ full part := by
  rcases hplace with ⟨hL, hN, hk⟩
  dsimp only at hL hN
  have hpart := extractChunk_eq_ok ⟨hL, hN, hk⟩ hfull
  have hchunk := (extractChunk_eq_ok_iff ⟨hL, hN, hk⟩ hfull).mp hpart
  exact ⟨_, hpart, Store.ofChunk_eq_ok (by omega) hchunk.part_size, hchunk⟩

/-- Whatever chunk a register is cut to, a run of instructions that succeeds on the chunk
succeeds on the register and leaves the chunk of its result. -/
theorem extractChunk_applyAll {N L k : Nat} {full : Buffer ℝ} (hL : L < N)
    (hN : 4 * N < wordBits) (hk : k < twoPow (2 * (N - L)))
    (hfull : full.size = twoPow (2 * N)) :
    exists part store, extractChunk full ⟨N, L, k⟩ = .ok part ∧
      Store.ofChunk L k part = .ok store ∧
      forall (whole chunk' : Experiment ℝ) (archive : Archive ℝ) (source : Source)
        (ops : List (Instruction ℝ)),
        whole.machine.width = N -> whole.machine.store.qubits = N ->
        whole.machine.store.data = full ->
        (forall op, op ∈ ops -> op.Evolves ∧ forall q, q ∈ op.qubits -> q < N) ->
        Experiment.applyAll
          { machine := { Machine.ofChunk store N with classical := whole.machine.classical }
            archive := archive
            source := source } ops false = (.ok (), chunk') ->
        exists whole', whole.applyAll ops false = (.ok (), whole') ∧
          extractChunk whole'.machine.store.data ⟨N, L, k⟩
            = .ok chunk'.machine.store.data := by
  have hplace : Place.Valid ⟨N, L, k⟩ := ⟨hL, by change 2 * N < wordBits; omega, hk⟩
  rcases exists_chunk hplace hfull with ⟨part, hpart, hstore, hchunk⟩
  refine ⟨part, ⟨L, k, part⟩, hpart, hstore, ?_⟩
  intro whole chunk' archive source ops hwidth hqubits hdata hops hrun
  have hrel := hchunk.isChunkOf hL (by omega) hk whole.machine hwidth hqubits hdata
  obtain ⟨whole', hwhole, hrel'⟩ :=
    Experiment.applyAll_follows hrel hN (fun op hop => (hops op hop).1) hrun
  have hdata' := hrel'.data
  rw [hrel'.place_eq] at hdata'
  exact ⟨whole', hwhole, (extractChunk_eq_ok_iff hplace hdata'.full_size).mpr hdata'⟩

theorem extractChunk_applyAll_cx :
    exists (part : Buffer ℝ) (store : Store ℝ) (chunk' whole' : Experiment ℝ),
      extractChunk (Buffer.tabulate 16 fun x => if x = 15 then 1 else 0) ⟨2, 1, 3⟩
        = .ok part ∧
      Store.ofChunk 1 3 part = .ok store ∧
      Experiment.applyAll ⟨Machine.ofChunk store 2, .empty, .ofSeed 0⟩
        [Instruction.gate "cx" [1, 0] []] false = (.ok (), chunk') ∧
      Experiment.applyAll
        ⟨Machine.ofStore ⟨2, 0, Buffer.tabulate 16 fun x => if x = 15 then 1 else 0⟩,
          .empty, .ofSeed 0⟩ [Instruction.gate "cx" [1, 0] []] false = (.ok (), whole') ∧
      extractChunk whole'.machine.store.data ⟨2, 1, 3⟩ = .ok chunk'.machine.store.data := by
  have hsize : (Buffer.tabulate 16 fun x => if x = 15 then 1 else 0 : Buffer ℝ).size
      = twoPow (2 * 2) := Buffer.size_tabulate _ _
  have hplace : Place.Valid ⟨2, 1, 3⟩ := ⟨by decide, by decide, by decide⟩
  obtain ⟨part, store, hpart, hstore, hrun⟩ := extractChunk_applyAll (by decide : 1 < 2)
    (by decide) (by decide : 3 < twoPow (2 * (2 - 1))) hsize
  have hchunk := (extractChunk_eq_ok_iff hplace hsize).mp hpart
  cases hstore.symm.trans (Store.ofChunk_eq_ok (by decide) hchunk.part_size)
  have hqs : forall q, q ∈ [1, 0] -> q < 2 := by decide
  have hnodup : (Instruction.gate "cx" [1, 0] [] : Instruction ℝ).qubits.Nodup :=
    (by decide : [1, 0].Nodup)
  have hrel := hchunk.isChunkOf (by decide) (by decide) (by decide)
    (Machine.ofStore ⟨2, 0, Buffer.tabulate 16 fun x => if x = 15 then 1 else 0⟩) rfl rfl rfl
  have hcheck : Machine.checkGate (Instruction.gate "cx" [1, 0] [] : Instruction ℝ) .cx
      = .ok () := rfl
  have hqubits : (Instruction.gate "cx" [1, 0] [] : Instruction ℝ).qubits = [1] ++ [0] := rfl
  obtain ⟨m, hm⟩ := hrel.applyGate_controlled rfl hcheck (by decide) hqubits rfl hnodup hqs
    (by decide : forall q, q ∈ [0] -> q < 1)
  have hstep : Experiment.apply ⟨Machine.ofChunk ⟨1, 3, part⟩ 2, .empty, .ofSeed 0⟩
      (Instruction.gate "cx" [1, 0] []) false = (.ok (), ⟨m, .empty, .ofSeed 0⟩) :=
    congrArg (Experiment.evolve ⟨Machine.ofChunk ⟨1, 3, part⟩ 2, .empty, .ofSeed 0⟩) hm
  have hsteps : Experiment.applyAll ⟨Machine.ofChunk ⟨1, 3, part⟩ 2, .empty, .ofSeed 0⟩
      [Instruction.gate "cx" [1, 0] []] false = (.ok (), ⟨m, .empty, .ofSeed 0⟩) := by
    unfold Experiment.applyAll
    rw [Bool.false_and, hstep]
    rfl
  obtain ⟨whole', hwhole, hextract⟩ := hrun
    ⟨Machine.ofStore ⟨2, 0, Buffer.tabulate 16 fun x => if x = 15 then 1 else 0⟩,
      .empty, .ofSeed 0⟩ ⟨m, .empty, .ofSeed 0⟩ .empty (.ofSeed 0) _ rfl rfl rfl (by
        intro op hop
        obtain rfl := List.mem_singleton.mp hop
        exact ⟨⟨hnodup, List.mem_cons_self, fun _ => ⟨by decide, by decide⟩⟩, hqs⟩) hsteps
  exact ⟨part, ⟨1, 3, part⟩, ⟨m, .empty, .ofSeed 0⟩, whole', hpart, hstore, hsteps, hwhole,
    hextract⟩

end MixedState
