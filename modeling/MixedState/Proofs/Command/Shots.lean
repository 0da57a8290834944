import MixedState.Proofs.Exact
import MixedState.Command.Report
import MixedState.Proofs.Density.Sampling
import MixedState.Proofs.Machine.Measurement
import MixedState.Proofs.Machine.Shape
import MixedState.Proofs.Machine.Start
import MixedState.Proofs.Results.Counts

/-!
# Shots and the report of a run

Where nothing is drawn at the end, the last instruction may take the state out.  It then
ends and saves as one that copies the state, so that a run reports the same with shots and
without.  With shots the state is still there, and only places with weight are drawn.
-/

namespace MixedState

variable {R : Type} [Scalar R]

/-!
## The last instruction
-/

namespace Experiment

variable {e : Experiment R} {n k : Nat}

/-- How instructions end, in order, up to and with the first that fails. -/
def outcomes (e : Experiment R) (final : Bool) : List (Instruction R) -> List (Outcome Unit)
  | [] => []
  | op :: rest =>
      match e.apply op (final && rest.isEmpty) with
      | (.ok (), e) => .ok () :: e.outcomes final rest
      | (.error fault, _) => [.error fault]

theorem perform_true {op : Instruction R}
    (hkind : ¬(op.kind = .saveState ∨ op.kind = .saveDensmat)) :
    e.perform op true = e.perform op false := by
  unfold perform
  cases hop : op.kind with
  | saveState =>
      exact absurd (Or.inl hop) hkind
  | saveDensmat =>
      exact absurd (Or.inr hop) hkind
  | barrier | errorLocation | mark | jump | reset | measure | bfunc | readoutError | gate
  | matrix | diagonal | superop | kraus | setStatevec | setDensmat | saveExpval | saveExpvalVar
  | saveProbs | saveProbsKet | saveAmpsSq | prepare | saveStatevec | saveAmps
  | setStabilizer =>
      rfl

theorem results_apply_true (hsplit : e.machine.isSplit = false) (hfull : e.machine.store.IsFull)
    (op : Instruction R) : (e.apply op true).results = (e.apply op false).results := by
  by_cases hkind : op.kind = .saveState ∨ op.kind = .saveDensmat
  · cases htakes : e.takesState op with
    | false =>
        rw [apply_of_not_takesState hkind htakes]
    | true =>
        rcases apply_of_takesState hsplit htakes with ⟨kind, key, mode, happly⟩
        rw [happly, happly]
        change Step.results (e.saveMatrix kind key mode (e.machine.store.take.1,
          e.machine.emptied)) = _
        rw [Store.take_fst_of_full hfull, saveMatrix_emptied]
        rfl
  · rw [apply_congr_perform fun _ _ => perform_true hkind]

end Experiment

inductive RunsAlike : Except Complaint (Experiment R) -> Except Complaint (Experiment R) -> Prop
  | ok {e e' : Experiment R} (hclassical : e.machine.classical = e'.machine.classical)
      (harchive : e.archive = e'.archive) : RunsAlike (.ok e) (.ok e')
  | error (complaint : Complaint) : RunsAlike (.error complaint) (.error complaint)

omit [Scalar R] in
theorem RunsAlike.cases {run run' : Except Complaint (Experiment R)} (h : RunsAlike run run') :
    (exists complaint, run = .error complaint ∧ run' = .error complaint) ∨
      exists e e', run = .ok e ∧ run' = .ok e' ∧
        e.machine.classical = e'.machine.classical ∧ e.archive = e'.archive := by
  cases h with
  | ok hclassical harchive =>
      exact Or.inr ⟨_, _, rfl, rfl, hclassical, harchive⟩
  | error complaint =>
      exact Or.inl ⟨complaint, rfl, rfl⟩

namespace Experiment

variable {e : Experiment R} {n k : Nat}

theorem runsAlike_true (h : e.machine.HasShape n n k) (place : Nat)
    (ops : List (Instruction R)) :
    e.outcomes true ops = e.outcomes false ops ∧
      RunsAlike (runInstructions e true place ops) (runInstructions e false place ops) := by
  -- Only the last instruction may take the state out.
  induction ops generalizing e place with
  | nil =>
      exact ⟨rfl, .ok rfl rfl⟩
  | cons op rest ih =>
      unfold outcomes runInstructions
      cases rest with
      | nil =>
          have hresults := results_apply_true h.whole h.isFull op
          rw [Bool.true_and, Bool.false_and, List.isEmpty_nil]
          rcases hleft : e.apply op true with ⟨outcome, left⟩
          rcases hright : e.apply op false with ⟨outcome', left'⟩
          rw [hleft, hright] at hresults
          obtain ⟨rfl, hclassical, harchive, _⟩ :
              outcome = outcome' ∧ left.machine.classical = left'.machine.classical ∧
                left.archive = left'.archive ∧ left.source = left'.source := by
            simpa [Step.results] using hresults
          cases outcome with
          | ok done =>
              exact ⟨rfl, .ok hclassical harchive⟩
          | error fault =>
              cases fault with
              | refused cause =>
                  exact ⟨rfl, .error _⟩
              | crash =>
                  exact ⟨rfl, .error _⟩
      | cons next rest =>
          have hstep := hasShape_apply h op
          rw [List.isEmpty_cons, Bool.and_false, Bool.and_false]
          rcases happly : e.apply op false with ⟨outcome, left⟩
          rw [happly] at hstep
          cases outcome with
          | ok done =>
              rcases ih hstep (place + 1) with ⟨houtcomes, hruns⟩
              exact ⟨congrArg (List.cons _) houtcomes, hruns⟩
          | error fault =>
              cases fault with
              | refused cause =>
                  exact ⟨rfl, .error _⟩
              | crash =>
                  exact ⟨rfl, .error _⟩

theorem hasShape_of_runInstructions {e' : Experiment R} {place : Nat}
    {ops : List (Instruction R)} (h : e.machine.HasShape n n k)
    (hrun : runInstructions e false place ops = .ok e') : e'.machine.HasShape n n k := by
  induction ops generalizing e place with
  | nil =>
      cases hrun
      exact h
  | cons op rest ih =>
      have hstep := hasShape_apply h op
      unfold runInstructions at hrun
      rw [Bool.false_and] at hrun
      rcases happly : e.apply op false with ⟨outcome, left⟩
      rw [happly] at hrun hstep
      cases outcome with
      | ok done =>
          exact ih hstep hrun
      | error fault =>
          cases fault with
          | refused cause =>
              cases hrun
          | crash =>
              cases hrun

end Experiment

/-!
## Draws from the final state
-/

def Store.diagonal (s : Store R) (x : Nat) : R :=
  (s.data.entry (Basis.cell s.qubits x x)).re

theorem Source.length_variates (count : Nat) (source : Source) :
    (source.variates count).1.length = count := by
  have hgo : forall (reversed : List Nat) (count : Nat) (source : Source),
      (Source.variates.go reversed count source).1.length = reversed.length + count := by
    intro reversed count
    induction count generalizing reversed with
    | zero =>
        intro source
        exact List.length_reverse
    | succ count ih =>
        intro source
        unfold Source.variates.go
        rw [ih, List.length_cons]
        omega
  exact (hgo [] count source).trans (Nat.zero_add count)

theorem mapM_gather {qs : List Nat} (hqs : forall q, q ∈ qs -> q < wordBits)
    (hlen : qs.length ≤ wordBits) (places : List Nat) :
    places.mapM (Basis.Checked.gather qs) = .ok (places.map (Basis.gather qs)) := by
  have hgather : forall x, Basis.Checked.gather qs x = .ok (Basis.gather qs x) := by
    intro x
    unfold Basis.Checked.gather
    rw [Basis.addressable_eq_ok_iff.mpr hqs, ok_bind, orCrash_of_true (decide_eq_true hlen),
      ok_bind]
    rfl
  induction places with
  | nil =>
      rfl
  | cons x rest ih =>
      rw [List.mapM_cons, hgather, ok_bind, ih]
      rfl

theorem mapM_gather_range {n : Nat} (hn : n ≤ wordBits) {places : List Nat}
    (hplaces : forall x, x ∈ places -> x < twoPow n) :
    places.mapM (Basis.Checked.gather (List.range n)) = .ok places := by
  have hsame : places.map (Basis.gather (List.range n)) = places.map id :=
    List.map_congr_left fun x hx => Basis.gather_range (hplaces x hx)
  rw [mapM_gather (fun q hq => Nat.lt_of_lt_of_le (List.mem_range.mp hq) hn)
    (by rw [List.length_range]; exact hn), hsame, List.map_id]

/-- Counts of so many draws from the state: where no diagonal entry is negative and one is
positive, only places with a positive entry are counted. -/
structure Experiment.Counted (e : Experiment R) (n shots : Nat) (counts : KeyMap Nat) : Prop where
  total : counts.total = shots
  positive : Scalar.Accumulates R ->
    (forall x, x < twoPow n -> Scalar.le 0 (e.machine.store.diagonal x) = true) ->
    (exists x, x < twoPow n ∧ Scalar.lt 0 (e.machine.store.diagonal x) = true) ->
    forall entry, entry ∈ counts.toList -> exists x, x < twoPow n ∧ entry.1 = Hex.label x ∧
      Scalar.lt 0 (e.machine.store.diagonal x) = true

theorem Store.HasShape.probabilities {s : Store R} {n : Nat}
    (h : s.HasShape n (twoPow (2 * n))) (hn : n < wordBits) :
    s.probabilities = .ok ((List.range (twoPow n)).map s.diagonal) := by
  have hqubits : s.qubits < wordBits := by
    rw [h.qubits]
    exact hn
  have hsize : twoPow s.qubits * twoPow s.qubits ≤ s.data.size := by
    rw [h.size_data, h.qubits, twoPow_two_mul]
  have hweights : s.probabilities = .ok ((List.range (twoPow s.qubits)).map s.diagonal) :=
    Store.probabilities_eq_ok_iff.mpr ⟨⟨hqubits, hsize⟩, rfl⟩
  rw [h.qubits] at hweights
  exact hweights

def Store.drawnPlace (s : Store R) (n variate : Nat) : Nat :=
  let weights := (List.range (twoPow n)).map s.diagonal
  selectPlace (lastPositive weights) (partialSums 0 weights).toArray (unitFraction variate)

theorem Store.drawnPlace_lt (s : Store R) (n variate : Nat) :
    s.drawnPlace n variate < twoPow n := by
  have hlength : ((List.range (twoPow n)).map s.diagonal).length = twoPow n := by
    rw [List.length_map, List.length_range]
  have hne : (List.range (twoPow n)).map s.diagonal ≠ [] := by
    intro hnil
    rw [hnil] at hlength
    exact Nat.ne_of_lt (twoPow_pos n) hlength
  have hlt := selectPlace_lt hne (partialSums 0 ((List.range (twoPow n)).map s.diagonal)).toArray
    (unitFraction variate)
  rw [hlength] at hlt
  exact hlt

theorem Scalar.Accumulates.lt_diagonal (laws : Scalar.Accumulates R) {s : Store R} {n : Nat}
    (hnonneg : forall x, x < twoPow n -> Scalar.le 0 (s.diagonal x) = true)
    (hpos : exists x, x < twoPow n ∧ Scalar.lt 0 (s.diagonal x) = true) (variate : Nat) :
    Scalar.lt 0 (s.diagonal (s.drawnPlace n variate)) = true := by
  rcases hpos with ⟨x, hx, hpos⟩
  have hweights : forall w, w ∈ (List.range (twoPow n)).map s.diagonal -> Scalar.le 0 w = true := by
    intro w hw
    rcases List.mem_map.mp hw with ⟨y, hy, rfl⟩
    exact hnonneg y (List.mem_range.mp hy)
  have hdrawn : Scalar.lt 0 (((List.range (twoPow n)).map s.diagonal).getD
      (s.drawnPlace n variate) 0) = true :=
    laws.lt_selectPlace hweights (List.mem_map.mpr ⟨x, List.mem_range.mpr hx, rfl⟩) hpos variate
  rw [Machine.getD_map_range _ (s.drawnPlace_lt n variate)] at hdrawn
  exact hdrawn

theorem Machine.HasShape.sample {m : Machine R} {n k shots : Nat} (h : m.HasShape n n k)
    (hn : n < wordBits) (hroom : shots * 8 < bufferLimit) (source : Source) :
    m.sample (List.range n) shots source =
      .ok ((source.variates shots).1.map (m.store.drawnPlace n), (source.variates shots).2) := by
  have hwhole : m.requireWhole "sample_measure" = .ok () := by
    unfold Machine.requireWhole
    rw [h.whole]
    rfl
  have hplaces : forall x, x ∈ (source.variates shots).1.map (m.store.drawnPlace n) ->
      x < twoPow n := by
    intro x hx
    rcases List.mem_map.mp hx with ⟨variate, _, rfl⟩
    exact m.store.drawnPlace_lt n variate
  have hsample : m.store.sample ((source.variates shots).1.map unitFraction) =
      .ok ((source.variates shots).1.map (m.store.drawnPlace n)) := by
    unfold Store.sample
    rw [h.store.probabilities hn, ok_bind]
    dsimp only
    rw [List.map_map]
    rfl
  unfold Machine.sample
  rw [hwhole, ok_bind, allocate_of_lt hroom, ok_bind]
  dsimp only
  rw [hsample, ok_bind, mapM_gather_range (Nat.le_of_lt hn) hplaces]
  rfl

theorem Experiment.countShots_of_le {e : Experiment R} {n k shots : Nat}
    (h : e.machine.HasShape n n k) (hroom : bufferLimit ≤ shots * 8) :
    countShots e n shots = .error .crash := by
  have hshots : shots ≠ 0 := by
    rintro rfl
    exact absurd hroom (by decide)
  unfold countShots Machine.sample Machine.requireWhole
  rw [if_neg hshots, h.whole, allocate_of_le hroom]
  rfl

theorem Experiment.exists_countShots {e : Experiment R} {n k shots : Nat}
    (h : e.machine.HasShape n n k) (hn : n < wordBits) (hshots : 0 < shots)
    (hroom : shots * 8 < bufferLimit) :
    exists counts, countShots e n shots = .ok counts ∧ e.Counted n shots counts := by
  refine ⟨countOutcomes ((e.source.variates shots).1.map (e.machine.store.drawnPlace n)),
    ?_, ?_, ?_⟩
  · unfold countShots
    rw [if_neg (Nat.ne_of_gt hshots), h.sample hn hroom]
    rfl
  · rw [total_countOutcomes, List.length_map, Source.length_variates]
  · intro laws hnonneg hpos entry hentry
    rcases label_of_mem_countOutcomes hentry with ⟨x, hx, hlabel⟩
    rcases List.mem_map.mp hx with ⟨variate, _, rfl⟩
    exact ⟨_, e.machine.store.drawnPlace_lt n variate, hlabel,
      laws.lt_diagonal hnonneg hpos variate⟩

/-!
## Programs
-/

theorem Program.hasShape_begin {program : Program R} {settings : Settings R} {seed : Nat}
    {e : Experiment R} (h : program.begin settings seed = .ok e) :
    program.qubits < wordBits ∧ e.machine.HasShape program.qubits program.qubits 0 := by
  unfold Program.begin at h
  rcases bind_eq_ok_iff.mp h with ⟨started, hstarted, h⟩
  rcases bind_eq_ok_iff.mp h with ⟨cleared, hcleared, h⟩
  cases h
  rw [Machine.start_eq] at hstarted
  cases hcount : Store.entryCount program.qubits with
  | error fault =>
      rw [hcount] at hstarted
      cases hstarted
  | ok count =>
      rcases Store.entryCount_eq_ok_iff.mp hcount with ⟨hn, _, rfl⟩
      rw [hcount] at hstarted
      cases hstarted
      rcases bind_eq_ok_iff.mp hcleared with ⟨bits, _, hbits⟩
      cases hbits
      exact ⟨by omega, rfl, ⟨rfl, Buffer.size_tabulate _ _⟩, rfl⟩

section Runs

variable {program : Program R} {ops : List (Instruction R)} {settings : Settings R}
  {seed shots : Nat} {start e : Experiment R}

theorem runProgram_of_error {complaint : Complaint}
    (hstart : program.begin settings seed = .ok start)
    (hrun : runInstructions start (shots == 0) 0 ops = .error complaint) :
    runProgram program ops settings seed shots = .error complaint := by
  unfold runProgram
  rw [hstart]
  change (runInstructions start (shots == 0) 0 ops >>= _) = _
  rw [hrun]
  rfl

theorem runProgram_of_ok {counts : KeyMap Nat}
    (hstart : program.begin settings seed = .ok start)
    (hrun : runInstructions start (shots == 0) 0 ops = .ok e)
    (hcounts : countShots e program.qubits shots = .ok counts) :
    runProgram program ops settings seed shots =
      .ok ⟨program.qubits, shots, e.machine.classical.memoryHex, counts, e.archive⟩ := by
  unfold runProgram
  rw [hstart]
  change (runInstructions start (shots == 0) 0 ops >>= _) = _
  rw [hrun]
  change (countShots e program.qubits shots >>= _) = _
  rw [hcounts]
  rfl

theorem runProgram_of_le (hstart : program.begin settings seed = .ok start)
    (hrun : runInstructions start (shots == 0) 0 ops = .ok e)
    (hfull : e.machine.HasShape program.qubits program.qubits 0)
    (hroom : bufferLimit ≤ shots * 8) :
    runProgram program ops settings seed shots = .error .crash := by
  unfold runProgram
  rw [hstart]
  change (runInstructions start (shots == 0) 0 ops >>= _) = _
  rw [hrun]
  change (countShots e program.qubits shots >>= _) = _
  rw [Experiment.countShots_of_le hfull hroom]
  rfl

/-- With shots and without, instructions of a program end alike.  The runs fail with one
complaint, or the final state is still there in full with shots: where the draws fit in memory
the runs report the same data and memory, and the counts are counts of draws from that state;
where they do not, only the run with shots ends in a crash. -/
theorem runProgram_shots (program : Program R) (ops : List (Instruction R))
    (settings : Settings R) (seed : Nat) {shots : Nat} (hshots : 0 < shots) :
    (forall start, program.begin settings seed = .ok start ->
      start.outcomes (shots == 0) ops = start.outcomes true ops) ∧
    ((exists complaint, runProgram program ops settings seed shots = .error complaint ∧
        runProgram program ops settings seed 0 = .error complaint) ∨
      exists plain start e,
        runProgram program ops settings seed 0 = .ok plain ∧
        program.begin settings seed = .ok start ∧
        runInstructions start (shots == 0) 0 ops = .ok e ∧
        e.machine.HasShape program.qubits program.qubits 0 ∧
        (shots * 8 < bufferLimit -> exists report,
          runProgram program ops settings seed shots = .ok report ∧
          report.data = plain.data ∧ report.memory = plain.memory ∧
          e.Counted program.qubits shots report.counts) ∧
        (bufferLimit ≤ shots * 8 ->
          runProgram program ops settings seed shots = .error .crash)) := by
  have hflag : (shots == 0) = false := beq_eq_false_iff_ne.mpr (Nat.ne_of_gt hshots)
  cases hstart : program.begin settings seed with
  | error fault =>
      refine ⟨fun start hok => (nomatch hok), Or.inl ⟨.ofFault fault, ?_, ?_⟩⟩
      · unfold runProgram
        rw [hstart]
        rfl
      · unfold runProgram
        rw [hstart]
        rfl
  | ok start =>
      rcases Program.hasShape_begin hstart with ⟨hn, hshape⟩
      rcases Experiment.runsAlike_true hshape 0 ops with ⟨houtcomes, hruns⟩
      rw [hflag]
      constructor
      · intro start' hstart'
        cases hstart'
        exact houtcomes.symm
      · rcases hruns.cases with ⟨complaint, hfinal, hkept⟩ |
          ⟨e₀, e, hfinal, hkept, hclassical, harchive⟩
        · refine Or.inl ⟨complaint, runProgram_of_error hstart ?_,
            runProgram_of_error hstart hfinal⟩
          rw [hflag]
          exact hkept
        · have hfull := Experiment.hasShape_of_runInstructions hshape hkept
          have hrun : runInstructions start (shots == 0) 0 ops = .ok e := by
            rw [hflag]
            exact hkept
          have hplain : runProgram program ops settings seed 0 = _ :=
            runProgram_of_ok hstart hfinal rfl
          refine Or.inr ⟨_, start, e, hplain, rfl, hkept, hfull, ?_,
            runProgram_of_le hstart hrun hfull⟩
          intro hroom
          rcases Experiment.exists_countShots hfull hn hshots hroom with
            ⟨counts, hcounts, hcounted⟩
          refine ⟨_, runProgram_of_ok hstart hrun hcounts, harchive.symm, ?_, hcounted⟩
          change e.machine.classical.memoryHex = e₀.machine.classical.memoryHex
          rw [hclassical]

end Runs

/-- One qubit in zero, with its state saved at the end. -/
noncomputable def savedQubit : Program ℝ :=
  ⟨1, 0, 0, [.save .saveState [0] "rho" .single], []⟩

theorem runProgram_shots_saved :
    0 < 3 ∧ exists report plain,
      runProgram savedQubit savedQubit.ops .standard 0 3 = .ok report ∧
      runProgram savedQubit savedQubit.ops .standard 0 0 = .ok plain ∧
      report.data = plain.data ∧ report.memory = plain.memory ∧ report.counts.total = 3 ∧
      forall entry, entry ∈ report.counts.toList -> entry.1 = "0x0" := by
  refine ⟨by decide, ?_⟩
  rcases (runProgram_shots savedQubit savedQubit.ops .standard 0 (by decide : 0 < 3)).2 with
    ⟨complaint, _, hplain⟩ | ⟨plain, start, e, hplain, hstart, hrun, hshape, hdrawn, _⟩
  · have hok : exists plain, runProgram savedQubit savedQubit.ops .standard 0 0 = .ok plain :=
      ⟨_, rfl⟩
    rcases hok with ⟨plain, hok⟩
    rw [hok] at hplain
    cases hplain
  · rcases hdrawn (by decide) with ⟨report, hreport, hdata, hmemory, hcounted⟩
    have hzero : e.machine.store.data =
        Buffer.tabulate 4 fun i => if i = 0 ∧ 0 = 0 then (1 : Amplitude ℝ) else 0 := by
      cases hstart
      cases hrun
      rfl
    have hdiagonal : forall x, x < twoPow 1 ->
        e.machine.store.diagonal x = if x = 0 then 1 else 0 := by
      intro x hx
      unfold Store.diagonal
      rw [hshape.store.qubits, hzero]
      change ((Buffer.tabulate 4 _).entry (x + x * 2)).re = _
      have hlt : x < 2 := hx
      rw [Buffer.entry_tabulate_of_lt _ (by omega)]
      by_cases hx0 : x = 0
      · subst hx0
        rfl
      · rw [if_neg hx0, if_neg (by omega)]
        rfl
    refine ⟨report, plain, hreport, hplain, hdata, hmemory, hcounted.total, ?_⟩
    intro entry hentry
    rcases hcounted.positive Scalar.accumulates_real
      (fun x hx => by
        rw [hdiagonal x hx]
        split <;> exact decide_eq_true (by norm_num))
      ⟨0, by decide, by
        rw [hdiagonal 0 (by decide), if_pos rfl]
        exact decide_eq_true one_pos⟩ entry hentry with ⟨x, hx, hlabel, hpos⟩
    rw [hdiagonal x hx] at hpos
    by_cases hx0 : x = 0
    · rw [hlabel, hx0]
      decide
    · rw [if_neg hx0] at hpos
      exact absurd (of_decide_eq_true hpos) (lt_irrefl 0)

/-- A run without shots succeeds where one with `2 ^ 60` of them crashes. -/
theorem runProgram_saved_crashes :
    0 < 2 ^ 60 ∧
      (exists plain, runProgram savedQubit savedQubit.ops .standard 0 0 = .ok plain) ∧
      runProgram savedQubit savedQubit.ops .standard 0 (2 ^ 60) = .error .crash :=
  ⟨by decide, ⟨_, rfl⟩,
    runProgram_of_le rfl rfl ⟨rfl, ⟨rfl, Buffer.size_tabulate _ _⟩, rfl⟩ (by decide)⟩

end MixedState
