import MixedState.Proofs.Density.Renaming
import MixedState.Proofs.Machine.Signalling
import MixedState.Proofs.Machine.Start

/-!
# Renaming qubits

Runs on renamed qubits end alike, save and record the same, draw the same, and leave the
renamed state.  One relation between two experiments is kept by each instruction, and so
by each run.
-/

namespace MixedState

open MixedState.Basis

variable {n : Nat} {π : Renaming n}

/-!
## Registers
-/

namespace Machine

variable {m m' : Machine ℝ} {qs : List Nat}

/-- Registers of `n` qubits with the same bits and settings.  The entries of the second
are those of the first, at moved indices. -/
structure Renamed (π : Renaming n) (m m' : Machine ℝ) : Prop where
  register : m.IsRegister n
  register' : m'.IsRegister n
  full : m.store.data.size = twoPow (2 * n)
  full' : m'.store.data.size = twoPow (2 * n)
  entries : IsRenamed π (m.store.data.toEntries n) (m'.store.data.toEntries n)
  classical : m'.classical = m.classical
  settings : m'.settings = m.settings

theorem isLocal_project (k outcome : Nat) (p : ℝ) :
    IsLocal k False fun m qs => m.project qs outcome p := by
  refine (isLocal_bind (checkedShift k) (fun dim m qs => allocate 16 dim >>= fun _ =>
    orCrash (outcome < dim) >>= fun _ => m.applyDiagonal qs (Buffer.tabulate dim fun i =>
      if i = outcome then Amplitude.ofReal (1 / Scalar.sqrt p) else 0)) ?_).congr ?_
  · intro dim _
    refine isLocal_bind (allocate 16 dim) (fun _ m qs => orCrash (outcome < dim) >>= fun _ =>
      m.applyDiagonal qs _) fun _ _ => ?_
    exact isLocal_bind (orCrash (outcome < dim)) (fun _ m qs => m.applyDiagonal qs _)
      fun _ _ => (isLocal_applyDiagonal k _).mono False.elim
  · rintro n m qs _ rfl
    rfl

namespace Renamed

theorem hosts (h : m.Renamed π m') (hosts : m.Hosts n qs) : m'.Hosts n (qs.map π.move) :=
  ⟨h.register', hosts.small, π.frame.nodup_map hosts.inside hosts.nodup,
    π.lt_of_mem_map hosts.inside⟩

theorem transformed (h : m.Renamed π m') (hosts : m.Hosts n qs) (u : Entries) :
    (m.transformed qs u).Renamed π (m'.transformed (qs.map π.move) u) where
  register := h.register.transformed qs u
  register' := h.register'.transformed _ u
  full := (Buffer.size_tabulate _ _).trans h.full
  full' := (Buffer.size_tabulate _ _).trans h.full'
  entries := by
    intro r c hr hc
    rw [h.register.toEntries_transformed h.full u hr hc,
      h.register'.toEntries_transformed h.full' u (π.index_lt r) (π.index_lt c)]
    exact isRenamed_act hosts.nodup hosts.inside h.entries r c hr hc
  classical := h.classical
  settings := h.settings

theorem withClassical (h : m.Renamed π m') (classical : Classical) :
    Renamed π { m with classical := classical } { m' with classical := classical } :=
  ⟨⟨h.register.width, h.register.qubits, h.register.size⟩,
    ⟨h.register'.width, h.register'.qubits, h.register'.size⟩, h.full, h.full', h.entries, rfl,
    h.settings⟩

/-- An operator that does not depend on where its qubits lie keeps registers renamed. -/
theorem ofLocal {k : Nat} {physical : Prop} {f : Machine ℝ -> List Nat -> Outcome (Machine ℝ)}
    (h : m.Renamed π m') (hf : IsLocal k physical f) (hosts : m.Hosts n qs)
    (hlen : qs.length = k) : Alike (Renamed π) (f m qs) (f m' (qs.map π.move)) := by
  rcases hf with ⟨u, _, hu⟩
  rw [hu n m qs hosts hlen, hu n m' _ (h.hosts hosts) (by rw [List.length_map, hlen])]
  cases u with
  | error fault =>
      exact .error fault
  | ok v =>
      exact .ok (h.transformed hosts v)

/-!
## Readouts
-/

theorem trace (h : m.Renamed π m') (hn : 2 * n < wordBits) : m'.store.trace = m.store.trace := by
  rw [h.register.trace_eq_ok hn h.full, h.register'.trace_eq_ok hn h.full', ← π.sum_index]
  congr 1
  apply Finset.sum_congr rfl
  intro x hx
  have hx := Finset.mem_range.mp hx
  rw [h.entries x x hx hx]

theorem reduced (h : m.Renamed π m') (hosts : m.Hosts n qs) :
    (m'.reduced (qs.map π.move) false).1 = (m.reduced qs false).1 := by
  by_cases hne : qs = []
  -- No qubits have the trace for their matrix, which is not read by the partial trace.
  · have hread : forall {machine : Machine ℝ}, machine.IsRegister n ->
        (machine.reduced [] false).1 = machine.store.trace.map fun t =>
          Mat.ofFn 1 1 fun _ _ => Amplitude.ofReal t := by
      intro machine hregister
      unfold Machine.reduced
      rw [requireWhole_of_whole hregister.width_eq]
      rfl
    rw [hne, List.map_nil, hread h.register, hread h.register', h.trace hosts.twice_lt]
  · have hne' : qs.map π.move ≠ [] := by simpa using hne
    rcases hosts.exists_reduced h.full hne with ⟨before, hbefore, hholds⟩
    rcases (h.hosts hosts).exists_reduced h.full' hne' with ⟨after, hafter, hholds'⟩
    rw [List.length_map] at hholds'
    rw [hbefore, hafter]
    congr 1
    apply hholds'.unique hholds
    intro a b _ _
    exact h.entries.reduceTo_map hosts.nodup hosts.inside a b

theorem outcomeProbabilities (h : m.Renamed π m') (hosts : m.Hosts n qs) :
    m'.outcomeProbabilities (qs.map π.move) = m.outcomeProbabilities qs := by
  rw [hosts.probabilities_eq_ok h.full, (h.hosts hosts).probabilities_eq_ok h.full',
    List.length_map]
  congr 2
  funext a
  rw [← π.sum_index]
  apply Finset.sum_congr rfl
  intro x hx
  have hx := Finset.mem_range.mp hx
  rw [π.frame.gather_map hosts.inside hx, h.entries x x hx hx]

theorem expectation (h : m.Renamed π m') (hosts : m.Hosts n qs) (string : String) :
    m'.store.expectation (qs.map π.move) string = m.store.expectation qs string := by
  have halike := PauliMasks.ofString_alike string (List.length_map π.move).symm
    hosts.lt_wordBits (h.hosts hosts).lt_wordBits
  cases hmasks : PauliMasks.ofString qs string with
  | error fault =>
      rw [hmasks] at halike
      unfold Store.expectation
      rw [hmasks, halike.eq_error]
      rfl
  | ok masks =>
      have hspells := spells_of_ofString_eq_ok hmasks
      have hspells' : Spells (qs.map π.move) string :=
        ⟨hspells.bytes.trans (List.length_map π.move).symm, hspells.letters⟩
      rw [hosts.expectation_eq_ok h.full hspells,
        (h.hosts hosts).expectation_eq_ok h.full' hspells', List.length_map]
      simp only [h.entries.reduceTo_map hosts.nodup hosts.inside]

/-!
## Measurements
-/

theorem measure (h : m.Renamed π m') (hosts : m.Hosts n qs) (memory registers : List Nat)
    (source : Source) :
    Alike (fun a b => a.1.Renamed π b.1 ∧ b.2 = a.2) (m.measure qs memory registers source)
      (m'.measure (qs.map π.move) memory registers source) := by
  unfold Machine.measure drawOutcome
  rw [h.outcomeProbabilities hosts]
  apply Alike.after
  rintro ⟨⟨outcome, p⟩, drawn⟩ _
  apply (h.ofLocal (isLocal_project qs.length outcome p) hosts rfl).bind
  intro projected projected' hprojected
  rw [hprojected.classical]
  apply Alike.after
  intro classical _
  exact .ok ⟨hprojected.withClassical classical, rfl⟩

end Renamed

end Machine

/-!
## Instructions
-/

def Instruction.rename (op : Instruction ℝ) (move : Nat -> Nat) : Instruction ℝ :=
  { op with qubits := op.qubits.map move }

/-- Whether instructions of the kind treat all qubits alike.  States that are loaded or
saved as a whole and indices of basis states have the qubits in ascending order. -/
def Kind.isRenamable : Kind -> Bool
  | .setStatevec | .setDensmat | .saveAmpsSq | .saveState => false
  | _ => true

namespace Experiment

variable {e e' : Experiment ℝ} {op : Instruction ℝ}

structure Renamed (π : Renaming n) (e e' : Experiment ℝ) : Prop where
  machine : e.machine.Renamed π e'.machine
  archive : e'.archive = e.archive
  source : e'.source = e.source

structure StepsRenamed (π : Renaming n) (step step' : Step ℝ) : Prop where
  outcome : step'.1 = step.1
  left : step.2.Renamed π step'.2

namespace Renamed

theorem evolve (h : e.Renamed π e') {x x' : Outcome (Machine ℝ)}
    (hx : Alike (Machine.Renamed π) x x') : StepsRenamed π (e.evolve x) (e'.evolve x') := by
  cases hx with
  | ok hm =>
      exact ⟨rfl, hm, h.archive, h.source⟩
  | error fault =>
      exact ⟨rfl, h⟩

theorem draw (h : e.Renamed π e') {x x' : Outcome (Machine ℝ × Source)}
    (hx : Alike (fun a b => a.1.Renamed π b.1 ∧ b.2 = a.2) x x') :
    StepsRenamed π (e.draw x) (e'.draw x') := by
  cases hx with
  | ok hm =>
      exact ⟨rfl, hm.1, h.archive, hm.2⟩
  | error fault =>
      exact ⟨rfl, h⟩

theorem file (h : e.Renamed π e') {x x' : Outcome (Archive ℝ)} (hx : x' = x) :
    StepsRenamed π (e.file x) (e'.file x') := by
  rw [hx]
  cases x with
  | ok archive =>
      exact ⟨rfl, h.machine, rfl, h.source⟩
  | error fault =>
      exact ⟨rfl, h⟩

/-!
## Saves
-/

theorem put (h : e.Renamed π e') (kind : Kind) (key : String) (mode : SaveMode)
    (data : SavedData ℝ) : e'.put kind key mode data = e.put kind key mode data := by
  unfold Experiment.put
  rw [h.archive, h.machine.classical]

theorem saveDensmat (h : e.Renamed π e') (hosts : e.machine.Hosts n op.qubits) :
    StepsRenamed π (e.saveDensmat op false) (e'.saveDensmat (op.rename π.move) false) := by
  have hread : forall (experiment : Experiment ℝ) (qs : List Nat) (key : String),
      experiment.saveMatrix op.kind key op.saveMode (experiment.machine.reduced qs false) =
        experiment.file ((experiment.machine.reduced qs false).1.bind fun matrix =>
          experiment.put op.kind key op.saveMode (.matrix matrix)) := by
    intro experiment qs key
    unfold saveMatrix
    rw [Machine.reduced_false]
  have hkey : saveKey (op.rename π.move) = saveKey op := rfl
  unfold Experiment.saveDensmat
  rw [hkey]
  cases saveKey op with
  | error fault =>
      exact ⟨rfl, h⟩
  | ok key =>
      change StepsRenamed π (e.saveMatrix op.kind key op.saveMode _)
        (e'.saveMatrix op.kind key op.saveMode (e'.machine.reduced (op.qubits.map π.move) false))
      rw [hread, hread]
      apply h.file
      rw [h.machine.reduced hosts]
      simp only [h.put]

theorem saveProbs (h : e.Renamed π e') (hosts : e.machine.Hosts n op.qubits) :
    e'.saveProbs (op.rename π.move) = e.saveProbs op := by
  have hweights := h.machine.outcomeProbabilities hosts
  unfold Experiment.saveProbs
  change (saveKey op >>= fun key =>
    e'.machine.outcomeProbabilities (op.qubits.map π.move) >>= fun weights =>
      e'.put op.kind key op.saveMode (if op.kind = .saveProbsKet
        then .ket (ketOf e'.machine.settings.chopThreshold weights) else .vector weights)) = _
  rw [hweights, h.machine.settings]
  simp only [h.put]

theorem saveExpval (h : e.Renamed π e') (hosts : e.machine.Hosts n op.qubits) :
    e'.saveExpval (op.rename π.move) = e.saveExpval op := by
  have hvalues : expectations e'.machine.store (op.qubits.map π.move) op.terms =
      expectations e.machine.store op.qubits op.terms := by
    unfold expectations
    simp only [h.machine.expectation hosts]
  have hwhole : e'.machine.requireWhole op.name = e.machine.requireWhole op.name := by
    rw [Machine.requireWhole_of_whole h.machine.register.width_eq,
      Machine.requireWhole_of_whole h.machine.register'.width_eq]
  unfold Experiment.saveExpval
  change (e'.machine.requireWhole op.name >>= fun _ => saveKey op >>= fun key =>
    if op.terms.isEmpty then _ else
      expectations e'.machine.store (op.qubits.map π.move) op.terms >>= fun values =>
        e'.put op.kind key op.saveMode (if op.kind = .saveExpvalVar
          then .vector [values.1, values.2 - values.1 * values.1] else .scalar values.1)) = _
  rw [hwhole, hvalues]
  simp only [h.put]
  rfl

/-!
## Steps and runs
-/

theorem perform (h : e.Renamed π e') (hop : op.kind.isRenamable = true)
    (hosts : e.machine.Hosts n op.qubits) :
    StepsRenamed π (e.perform op false) (e'.perform (op.rename π.move) false) := by
  -- Operators are local and need no case each; what is left reads out or writes classical bits.
  by_cases hoperator : op.kind.isOperator = true
  · have hoperator' : (op.rename π.move).kind.isOperator = true := hoperator
    rw [perform_eq_evolve hoperator, perform_eq_evolve hoperator']
    exact h.evolve (h.machine.ofLocal (op.isLocal_operate hoperator) hosts rfl)
  · have hkind' : (op.rename π.move).kind = op.kind := rfl
    unfold Experiment.perform
    dsimp only
    rw [hkind']
    cases hkind : op.kind with
    | barrier | errorLocation | mark | jump =>
        exact ⟨rfl, h⟩
    | measure =>
        rw [h.source]
        exact h.draw (h.machine.measure hosts op.memory op.registers e.source)
    | bfunc =>
        rw [h.machine.classical]
        change StepsRenamed π (e.evolve _) (e'.evolve ((e.machine.classical.applyBfunc op).map _))
        cases e.machine.classical.applyBfunc op with
        | error fault =>
            exact ⟨rfl, h⟩
        | ok bits =>
            exact h.evolve (.ok (h.machine.withClassical bits))
    | readoutError =>
        rw [h.machine.classical, h.source]
        change StepsRenamed π (e.draw _)
          (e'.draw ((e.machine.classical.applyReadout op e.source).map _))
        cases e.machine.classical.applyReadout op e.source with
        | error fault =>
            exact ⟨rfl, h⟩
        | ok drawn =>
            exact h.draw (.ok ⟨h.machine.withClassical drawn.1, rfl⟩)
    | saveExpval | saveExpvalVar =>
        exact h.file (h.saveExpval hosts)
    | saveDensmat =>
        exact h.saveDensmat hosts
    | saveProbs | saveProbsKet =>
        exact h.file (h.saveProbs hosts)
    | prepare | saveStatevec | saveAmps | setStabilizer =>
        exact ⟨rfl, h⟩
    | gate | matrix | diagonal | kraus | superop | reset =>
        rw [hkind] at hoperator
        exact absurd rfl hoperator
    | setStatevec | setDensmat | saveAmpsSq | saveState =>
        rw [hkind] at hop
        cases hop

theorem apply (h : e.Renamed π e') (hn : 4 * n < wordBits) (hop : op.kind.isRenamable = true)
    (hnodup : op.qubits.Nodup) (hinside : forall q, q ∈ op.qubits -> q < n) :
    StepsRenamed π (e.apply op false) (e'.apply (op.rename π.move) false) := by
  have hosts : e.machine.Hosts n op.qubits := ⟨h.machine.register, hn, hnodup, hinside⟩
  have hallows' : e'.machine.classical.allows (op.rename π.move) =
      e.machine.classical.allows op := by
    rw [h.machine.classical]
    rfl
  cases hallows : e.machine.classical.allows op with
  | false =>
      unfold Experiment.apply
      rw [hallows', hallows]
      exact ⟨rfl, h⟩
  | true =>
      rw [apply_of_allows hallows (h.machine.register.width.symm ▸ hinside),
        apply_of_allows (hallows'.trans hallows)
          (h.machine.register'.width.symm ▸ π.lt_of_mem_map hinside)]
      exact h.perform hop hosts

theorem applyAll (h : e.Renamed π e') (hn : 4 * n < wordBits) {ops : List (Instruction ℝ)}
    (hops : forall op, op ∈ ops -> op.kind.isRenamable = true ∧ op.qubits.Nodup ∧
      forall q, q ∈ op.qubits -> q < n) :
    StepsRenamed π (e.applyAll ops false)
      (e'.applyAll (ops.map fun op => op.rename π.move) false) := by
  induction ops generalizing e e' with
  | nil =>
      exact ⟨rfl, h⟩
  | cons op rest ih =>
      rcases List.forall_mem_cons.mp hops with ⟨⟨hop, hnodup, hinside⟩, hrest⟩
      have hstep := h.apply hn hop hnodup hinside
      rw [List.map_cons]
      unfold Experiment.applyAll
      rw [Bool.false_and, Bool.false_and]
      rcases hfirst : e.apply op false with ⟨outcome, left⟩
      rcases hsecond : e'.apply (op.rename π.move) false with ⟨outcome', left'⟩
      rw [hfirst, hsecond] at hstep
      rcases hstep with ⟨rfl, hleft⟩
      cases outcome' with
      | error fault =>
          exact ⟨rfl, hleft⟩
      | ok done =>
          exact ih hleft hrest

end Renamed

theorem exists_start_renamed {N : Nat} (hN : 4 * N < wordBits) (π : Renaming N)
    (m : Machine ℝ) : exists started, m.start N = .ok started ∧ started.Renamed π started := by
  have hsize : (m.store.started N (twoPow (2 * N))).data.size = twoPow (2 * N) :=
    Buffer.size_tabulate _ _
  refine ⟨_, m.start_of_lt hN, ⟨rfl, rfl, Or.inl hsize⟩, ⟨rfl, rfl, Or.inl hsize⟩, hsize, hsize,
    ?_, rfl, rfl⟩
  intro r c hr hc
  unfold Store.started
  rw [Buffer.toEntries_tabulate _ hr hc, Buffer.toEntries_tabulate _ (π.index_lt r) (π.index_lt c)]
  simp only [cell_eq_zero_iff, π.index_eq_zero_iff hr, π.index_eq_zero_iff hc]

/-- A run from a fresh start and the run of the renamed instructions from there end alike,
with the same classical bits, archive and source, and leave states that differ by the
renaming. -/
theorem applyAll_rename {N : Nat} (hN : 4 * N < wordBits) (π : Renaming N) (m : Machine ℝ)
    (archive : Archive ℝ) (source : Source) {ops : List (Instruction ℝ)}
    (hops : forall op, op ∈ ops -> op.kind.isRenamable = true ∧ op.qubits.Nodup ∧
      forall q, q ∈ op.qubits -> q < N) :
    exists started, m.start N = .ok started ∧
      StepsRenamed π ((Experiment.mk started archive source).applyAll ops false)
        ((Experiment.mk started archive source).applyAll
          (ops.map fun op => op.rename π.move) false) := by
  rcases exists_start_renamed hN π m with ⟨started, hstart, hrenamed⟩
  have h : (Experiment.mk started archive source).Renamed π ⟨started, archive, source⟩ :=
    ⟨hrenamed, rfl, rfl⟩
  exact ⟨started, hstart, h.applyAll hN hops⟩

theorem applyAll_rename_entangled :
    exists started, (Machine.empty : Machine ℝ).start 2 = .ok started ∧
      StepsRenamed (.reversed 2)
        ((Experiment.mk started .empty (.ofSeed 0)).applyAll
          [.gate "h" [0] [], .gate "cx" [0, 1] [], .measure [0] [1],
            .save .saveDensmat [1, 0] "state" .single] false)
        ((Experiment.mk started .empty (.ofSeed 0)).applyAll
          [.gate "h" [1] [], .gate "cx" [1, 0] [], .measure [1] [1],
            .save .saveDensmat [0, 1] "state" .single] false) := by
  have hops : forall op, op ∈ ([.gate "h" [0] [], .gate "cx" [0, 1] [], .measure [0] [1],
      .save .saveDensmat [1, 0] "state" .single] : List (Instruction ℝ)) ->
      op.kind.isRenamable = true ∧ op.qubits.Nodup ∧ forall q, q ∈ op.qubits -> q < 2 := by
    simp only [List.forall_mem_cons]
    refine ⟨?_, ?_, ?_, ?_, fun _ hop => nomatch hop⟩
    all_goals exact ⟨rfl, by decide, by decide⟩
  exact applyAll_rename (by decide) (.reversed 2) .empty .empty (.ofSeed 0) hops

end Experiment
end MixedState
