import MixedState.Proofs.InPlace.Experiment
import MixedState.Proofs.Machine.Bounds
import MixedState.Proofs.Machine.Repeats
import MixedState.Proofs.Machine.Start
import MixedState.Proofs.Partition.Together

/-!
# Instructions never crash

From a start, or from a chunk of a register, on: whatever instructions are carried out or
refused, the store keeps its entries and its place in the register.  So the next
instruction finds every entry that it reads or writes, and succeeds or is refused.

The bounds are guards in front of total reads.  That they are the bounds of the loops, which
check every index that they come to, is shown kernel by kernel, where a loop of
`Kernel.InPlace` ends as its kernel does: `sweeps_diagonal`, `sweeps_phase`, `sweeps_controlled`,
`sweeps_exchange` and `sweeps_dense`, and on the rows and columns of a matrix `sweeps_passes`,
`sweeps_unitary`, `sweeps_diagonalUnitary`, `sweeps_swap` and `pauli_bothSides_eq`.
-/

namespace MixedState

open MixedState.Basis

/-!
## Bits
-/

namespace Classical

variable {slots memory registers : List Nat}

structure HasRoom (slots : List Nat) : Prop where
  few : slots.length < wordBits
  low : forall slot, slot ∈ slots -> slot < twoPow 32

theorem HasRoom.take (h : HasRoom slots) (count : Nat) : HasRoom (slots.take count) := by
  refine ⟨?_, fun slot hslot => h.low slot (List.mem_of_mem_take hslot)⟩
  rw [List.length_take]
  exact Nat.lt_of_le_of_lt (Nat.min_le_right _ _) h.few

theorem HasRoom.singleton {slot : Nat} (h : HasRoom slots) (hslot : slot ∈ slots) :
    HasRoom [slot] := by
  refine ⟨(by decide : 1 < wordBits), fun other hother => ?_⟩
  rw [List.mem_singleton.mp hother]
  exact h.low slot hslot

theorem noCrash_writeBits {first : Nat} (hlow : forall slot, slot ∈ slots -> slot < twoPow 32)
    (hfew : first + slots.length ≤ wordBits) (outcome : Nat) (bits : List Bool) :
    NoCrash (writeBits outcome bits first slots) := by
  induction slots generalizing first bits with
  | nil =>
      exact noCrash_ok bits
  | cons slot rest ih =>
      rcases List.forall_mem_cons.mp hlow with ⟨hslot, hrest⟩
      have hroom : slot + 1 < bufferLimit :=
        Nat.lt_of_le_of_lt hslot (by decide : twoPow 32 < bufferLimit)
      rw [List.length_cons] at hfew
      unfold writeBits
      rw [if_pos ⟨by omega, hroom⟩]
      exact ih hrest (by omega) _

theorem noCrash_record (c : Classical) (outcome : Nat) (hmemory : HasRoom memory)
    (hregisters : HasRoom registers) : NoCrash (c.record outcome memory registers) := by
  have hwrite : forall {slots : List Nat} (bits : List Bool), HasRoom slots ->
      NoCrash (writeBits outcome bits 0 slots) := fun bits h =>
    noCrash_writeBits h.low (by rw [Nat.zero_add]; exact Nat.le_of_lt h.few) outcome bits
  exact (hwrite _ hmemory).bind fun _ _ => (hwrite _ hregisters).bind fun _ _ => noCrash_ok _

theorem noCrash_operand (what text : String) : NoCrash (operand what text) := by
  unfold operand
  split
  · exact noCrash_ok _
  · exact noCrash_refuse _

variable {c : Classical} {op : Instruction ℝ}

theorem noCrash_applyBfunc (hmemory : HasRoom op.memory) (hregisters : HasRoom op.registers) :
    NoCrash (c.applyBfunc op) := by
  unfold applyBfunc
  split
  · split
    · exact noCrash_refuse _
    · exact noCrash_refuse _
    · next bit rest hcons =>
        rw [hcons] at hregisters
        apply (noCrash_operand _ _).bind
        intro mask _
        apply (noCrash_operand _ _).bind
        intro target _
        exact noCrash_record c _ (hmemory.take 1) (hregisters.singleton List.mem_cons_self)
  · exact noCrash_refuse _

end Classical

theorem Source.noCrash_choose (source : Source) (weights : List ℝ) :
    NoCrash (source.choose weights) := by
  unfold choose
  dsimp only
  split
  · exact noCrash_refuse _
  · split
    · exact noCrash_refuse _
    · rw [if_neg (by simp [Scalar.isFinite])]
      exact noCrash_ok _

theorem Classical.noCrash_applyReadout {c : Classical} {op : Instruction ℝ}
    (hmemory : HasRoom op.memory) (hregisters : HasRoom op.registers) (source : Source) :
    NoCrash (c.applyReadout op source) := by
  unfold applyReadout read
  rw [if_pos (Nat.le_of_lt hmemory.few), ok_bind]
  split
  · rw [checkedShift_of_lt hmemory.few]
    exact noCrash_refuse _
  · apply (source.noCrash_choose _).bind
    intro drawn _
    exact (noCrash_record c _ hmemory hregisters).bind fun _ _ => noCrash_ok _

/-!
## Readouts
-/

namespace Machine.Addresses

variable {N L k : Nat} {m : Machine ℝ} {qs : List Nat}

theorem whole (h : m.Addresses N L k qs) (hsplit : m.isSplit = false) :
    m.width = m.store.qubits := by
  have hle := h.le
  rw [h.isSplit, decide_eq_false_iff_not] at hsplit
  rw [h.width, h.store.qubits]
  omega

theorem twice_width_lt (h : m.Addresses N L k qs) : 2 * m.width < wordBits := by
  have hsmall := h.small
  rw [h.width]
  omega

theorem lt_width (h : m.Addresses N L k qs) : forall q, q ∈ qs -> q < m.width := by
  rw [h.width]
  exact h.inside

theorem size_of_whole (h : m.Addresses N L k qs) (hsplit : m.isSplit = false) :
    m.store.data.size = twoPow (2 * m.width) := by
  rw [h.whole hsplit, h.store.qubits]
  exact h.store.size_data

theorem outcomeProbabilities_of_whole (h : m.Addresses N L k qs) (hsplit : m.isSplit = false) :
    m.outcomeProbabilities qs =
      .ok ((List.range (twoPow qs.length)).map (m.store.marginal qs)) := by
  have hroom : twoPow m.store.qubits * twoPow m.store.qubits ≤ m.store.data.size := by
    rw [h.size_of_whole hsplit, h.whole hsplit, twoPow_two_mul]
  exact (outcomeProbabilities_eq_ok_iff (h.whole hsplit) h.lt_width).mpr
    ⟨⟨h.store_lt, hroom, Or.inl (Nat.lt_trans h.length_lt (by decide))⟩, rfl⟩

theorem noCrash_outcomeProbabilities (h : m.Addresses N L k qs) :
    NoCrash (m.outcomeProbabilities qs) := by
  cases hsplit : m.isSplit with
  | true =>
      rw [outcomeProbabilities_of_split hsplit]
      exact noCrash_refuse _
  | false =>
      exact noCrash_of_eq_ok (h.outcomeProbabilities_of_whole hsplit)

theorem lt_of_drawOutcome {outcome : Nat} {probability : ℝ} {source source' : Source}
    (h : m.Addresses N L k qs)
    (hdrawn : m.drawOutcome qs source = .ok ((outcome, probability), source')) :
    outcome < twoPow qs.length := by
  unfold drawOutcome at hdrawn
  rcases bind_eq_ok_iff.mp hdrawn with ⟨weights, hweights, hdrawn⟩
  rcases bind_eq_ok_iff.mp hdrawn with ⟨⟨index, left⟩, hchoose, hdrawn⟩
  cases hdrawn
  cases hsplit : m.isSplit with
  | true =>
      rw [outcomeProbabilities_of_split hsplit] at hweights
      exact absurd hweights refuse_ne_ok
  | false =>
      rw [h.outcomeProbabilities_of_whole hsplit] at hweights
      cases hweights
      have hlt := (pos_of_choose_eq_ok hchoose).1
      rw [List.length_map, List.length_range] at hlt
      exact hlt

theorem noCrash_measure {memory registers : List Nat} (h : m.Addresses N L k qs)
    (hmemory : Classical.HasRoom memory) (hregisters : Classical.HasRoom registers)
    (source : Source) : NoCrash (m.measure qs memory registers source) := by
  have hdraw : NoCrash (m.drawOutcome qs source) :=
    h.noCrash_outcomeProbabilities.bind fun weights _ =>
      (source.noCrash_choose weights).bind fun _ _ => noCrash_ok _
  apply hdraw.bind
  rintro ⟨⟨outcome, probability⟩, left⟩ hdrawn
  apply (h.noCrash_project (h.lt_of_drawOutcome hdrawn) probability).bind
  intro projected _
  exact (Classical.noCrash_record _ _ hmemory hregisters).bind fun _ _ => noCrash_ok _

theorem noCrash_copy (h : m.Addresses N L k qs) : NoCrash m.store.copy := by
  have hsize : twoPow L * twoPow L ≤ m.store.data.size := by
    rw [h.store.size_data, twoPow_two_mul]
  unfold Store.copy Mat.ofColumns
  rw [h.dims.1, ok_bind, if_pos hsize]
  exact noCrash_ok _

theorem noCrash_reduced (h : m.Addresses N L k qs) : NoCrash (m.reduced qs false).1 := by
  cases hsplit : m.isSplit with
  | true =>
      rw [reduced_of_split hsplit]
      exact noCrash_refuse _
  | false =>
      have hwhole := h.whole hsplit
      have hlen : qs.length ≤ m.width := length_le_of_nodup h.nodup h.lt_width
      unfold reduced
      rw [requireWhole_of_whole hwhole]
      dsimp only
      split
      · exact NoCrash.map (noCrash_of_eq_ok
          (trace_eq_ok hwhole h.twice_width_lt (h.size_of_whole hsplit))) _
      · split
        · exact noCrash_of_eq_ok
            (partialTrace_eq_ok h.twice_width_lt (h.size_of_whole hsplit) hlen h.lt_width)
        · exact h.noCrash_copy

theorem noCrash_expectation (h : m.Addresses N L k qs) (hsplit : m.isSplit = false)
    (string : String) : NoCrash (m.store.expectation qs string) := by
  cases hmasks : PauliMasks.ofString qs string with
  | ok masks =>
      exact noCrash_of_eq_ok (expectation_eq_ok (h.whole hsplit) h.twice_width_lt
        (h.size_of_whole hsplit) h.lt_width (spells_of_ofString_eq_ok hmasks))
  | error fault =>
      rcases (PauliMasks.noCrash_ofString h.lt_wordBits string).eq_refuse hmasks with
        ⟨cause, rfl⟩
      unfold Store.expectation
      rw [hmasks]
      exact noCrash_refuse cause

theorem noCrash_probability {i : Nat} (h : m.Addresses N L k qs) (hi : i < twoPow L) :
    NoCrash (m.store.probability i) := by
  have hplace : i * (twoPow L + 1) < m.store.data.size := by
    rw [h.store.size_data, twoPow_two_mul]
    exact mul_succ_lt_square hi
  unfold Store.probability
  rw [h.dims.1, ok_bind]
  dsimp only
  rw [orCrash_of_true (decide_eq_true hplace)]
  exact noCrash_ok _

end Machine.Addresses

/-!
## Saves
-/

namespace Experiment

variable {N L k : Nat} {e : Experiment ℝ} {op : Instruction ℝ}

theorem noCrash_saveKey (op : Instruction ℝ) : NoCrash (saveKey op) := by
  unfold saveKey
  split
  · exact noCrash_ok _
  · exact noCrash_refuse _

theorem noCrash_put (e : Experiment ℝ) (kind : Kind) (key : String) (mode : SaveMode)
    (data : SavedData ℝ) : NoCrash (e.put kind key mode data) :=
  Archive.noCrash_save _ _ _ _ _ _

theorem noCrash_saveMatrix {kind : Kind} {key : String} {mode : SaveMode}
    {read : Outcome (Mat ℝ) × Machine ℝ} (h : NoCrash read.1) :
    NoCrash (e.saveMatrix kind key mode read).1 :=
  noCrash_file (h.bind fun _ _ => noCrash_put _ _ _ _ _)

theorem noCrash_saveState (h : e.machine.Addresses N L k op.qubits) :
    NoCrash (e.saveState op false).1 := by
  have hcheck : NoCrash (e.checkState op) := by
    unfold checkState Machine.requireWhole
    split
    · exact noCrash_refuse _
    · rw [ok_bind]
      split
      · exact noCrash_refuse _
      · exact noCrash_saveKey op
  unfold saveState
  cases hkey : e.checkState op with
  | error fault =>
      rcases hcheck.eq_refuse hkey with ⟨cause, rfl⟩
      exact noCrash_refuse cause
  | ok key =>
      exact noCrash_saveMatrix h.noCrash_copy

theorem noCrash_saveDensmat (h : e.machine.Addresses N L k op.qubits) :
    NoCrash (e.saveDensmat op false).1 := by
  unfold saveDensmat
  cases hkey : saveKey op with
  | error fault =>
      rcases (noCrash_saveKey op).eq_refuse hkey with ⟨cause, rfl⟩
      exact noCrash_refuse cause
  | ok key =>
      exact noCrash_saveMatrix h.noCrash_reduced

theorem noCrash_saveProbs (h : e.machine.Addresses N L k op.qubits) :
    NoCrash (e.saveProbs op) := by
  unfold saveProbs
  apply (noCrash_saveKey op).bind
  intro key _
  apply h.noCrash_outcomeProbabilities.bind
  intro weights _
  exact noCrash_put _ _ _ _ _

theorem noCrash_saveAmpsSq (h : e.machine.Addresses N L k op.qubits) :
    NoCrash (e.saveAmpsSq op) := by
  cases hsplit : e.machine.isSplit with
  | true =>
      rw [saveAmpsSq_of_split hsplit]
      exact noCrash_refuse _
  | false =>
      have hwhole := h.whole hsplit
      have hwidth : e.machine.width = L := by
        rw [hwhole, h.store.qubits]
      unfold saveAmpsSq
      rw [Machine.requireWhole_of_whole hwhole, ok_bind]
      apply (noCrash_saveKey op).bind
      intro key _
      split
      · exact noCrash_refuse _
      · rw [checkedShift_of_lt (hwhole ▸ h.store_lt), ok_bind, hwidth]
        split
        · exact noCrash_refuse _
        · next hnone =>
            have hbelow : forall i, i ∈ op.indices -> i < twoPow L := by
              simpa using List.find?_eq_none.mp hnone
            apply (NoCrash.mapM fun i hi => h.noCrash_probability (hbelow i hi)).bind
            intro values _
            exact noCrash_put _ _ _ _ _

theorem noCrash_saveExpval (h : e.machine.Addresses N L k op.qubits) :
    NoCrash (e.saveExpval op) := by
  cases hsplit : e.machine.isSplit with
  | true =>
      rw [saveExpval_of_split hsplit]
      exact noCrash_refuse _
  | false =>
      have hterms : NoCrash (expectations e.machine.store op.qubits op.terms) := by
        apply NoCrash.foldlM
        rintro ⟨sum, sqSum⟩ term _
        exact (h.noCrash_expectation hsplit term.pauli).bind fun _ _ => noCrash_ok _
      unfold saveExpval
      rw [Machine.requireWhole_of_whole (h.whole hsplit), ok_bind]
      apply (noCrash_saveKey op).bind
      intro key _
      split
      · exact noCrash_refuse _
      · apply hterms.bind
        intro means _
        exact noCrash_put _ _ _ _ _

end Experiment

/-!
## One instruction
-/

/-- The qubits are distinct and the bits have room; all else may be malformed. -/
structure Instruction.IsAdmissible (op : Instruction ℝ) : Prop where
  nodup : op.qubits.Nodup
  memory : Classical.HasRoom op.memory
  registers : Classical.HasRoom op.registers

namespace Experiment

variable {N L k : Nat} {e : Experiment ℝ} {op : Instruction ℝ}

def BuildsSuperop (e : Experiment ℝ) (op : Instruction ℝ) : Prop :=
  match op.kind with
  | .reset => e.machine.Reaches op.qubits
  | .kraus => op.matrices ≠ [] ∧ forall u, u ∈ op.matrices ->
      u.rows = twoPow op.qubits.length ∧ u.cols = twoPow op.qubits.length
  | _ => False

def Allocates (e : Experiment ℝ) (op : Instruction ℝ) : Prop :=
  e.machine.classical.allows op = true -> (forall q, q ∈ op.qubits -> q < e.machine.width) ->
    e.BuildsSuperop op -> allocate 16 (twoPow (4 * op.qubits.length)) = .ok ()

theorem noCrash_evolve {result : Outcome (Machine ℝ)} (h : NoCrash result) :
    NoCrash (e.evolve result).1 := by
  rw [InPlace.evolve_eq]
  exact Procedure.noCrash_settle (h.bind fun _ _ => noCrash_ok _)

theorem noCrash_draw {result : Outcome (Machine ℝ × Source)} (h : NoCrash result) :
    NoCrash (e.draw result).1 := by
  rw [InPlace.draw_eq]
  exact Procedure.noCrash_settle (h.bind fun _ _ => noCrash_ok _)

theorem noCrash_perform (h : e.machine.Addresses N L k op.qubits) (hop : op.IsAdmissible)
    (hroom : e.BuildsSuperop op -> op.qubits.length < 15) :
    NoCrash (e.perform op false).1 := by
  unfold BuildsSuperop at hroom
  unfold perform
  dsimp only
  cases hkind : op.kind with
  | barrier | errorLocation | mark | jump =>
      exact noCrash_ok ()
  | reset =>
      rw [hkind] at hroom
      exact noCrash_evolve (h.noCrash_applyReset hroom)
  | measure =>
      exact noCrash_draw (h.noCrash_measure hop.memory hop.registers _)
  | bfunc =>
      exact noCrash_evolve ((Classical.noCrash_applyBfunc hop.memory hop.registers).map _)
  | readoutError =>
      exact noCrash_draw ((Classical.noCrash_applyReadout hop.memory hop.registers _).map _)
  | gate =>
      exact noCrash_evolve h.noCrash_applyGate
  | matrix =>
      cases op.matrices with
      | nil =>
          exact noCrash_refuse _
      | cons matrix rest =>
          exact noCrash_evolve (h.noCrash_applyMatrix matrix)
  | diagonal =>
      exact noCrash_evolve (h.noCrash_applyDiagonal op.params)
  | superop =>
      cases op.matrices with
      | nil =>
          exact noCrash_refuse _
      | cons matrix rest =>
          exact noCrash_evolve (h.noCrash_applySuperop matrix)
  | kraus =>
      rw [hkind] at hroom
      exact noCrash_evolve (h.noCrash_applyKraus fun hne hshapes => hroom ⟨hne, hshapes⟩)
  | setStatevec =>
      exact noCrash_evolve h.noCrash_setVector
  | setDensmat =>
      exact noCrash_evolve h.noCrash_setMatrix
  | saveExpval | saveExpvalVar =>
      exact noCrash_file (noCrash_saveExpval h)
  | saveState =>
      exact noCrash_saveState h
  | saveDensmat =>
      exact noCrash_saveDensmat h
  | saveProbs | saveProbsKet =>
      exact noCrash_file (noCrash_saveProbs h)
  | saveAmpsSq =>
      exact noCrash_file (noCrash_saveAmpsSq h)
  | prepare | saveStatevec | saveAmps | setStabilizer =>
      exact noCrash_refuse _

theorem noCrash_apply (h : e.machine.HasShape N L k) (hle : L ≤ N) (hN : 4 * N < wordBits)
    (hop : op.IsAdmissible) (hmemory : e.Allocates op) : NoCrash (e.apply op false).1 := by
  unfold apply
  split
  · exact noCrash_ok ()
  · next hskipped =>
      have hallows : e.machine.classical.allows op = true := by simpa using hskipped
      split
      · exact noCrash_refuse _
      · next hnone =>
          have hwidth : forall q, q ∈ op.qubits -> q < e.machine.width := by
            simpa using List.find?_eq_none.mp hnone
          have hinside : forall q, q ∈ op.qubits -> q < N := by
            rw [← h.width]
            exact hwidth
          have hroom : e.BuildsSuperop op -> op.qubits.length < 15 := fun hbuilds =>
            lt_of_fits (of_decide_eq_true (orCrash_eq_ok_iff.mp (hmemory hallows hwidth hbuilds)))
          exact noCrash_perform ⟨h, hle, hN, hop.nodup, hinside⟩ hop hroom

theorem inPlace_apply_eq (h : e.machine.HasShape N L k) (hle : L ≤ N) (hN : 4 * N < wordBits)
    (hop : op.IsAdmissible) (hmemory : e.Allocates op) :
    InPlace.apply op false e = e.apply op false := by
  have hagree : Procedure.Agree (InPlace.apply op false e) (e.apply op false) :=
    InPlace.agree_apply false
  rcases hagree with hsame | ⟨_, hcrash⟩
  · exact hsame
  · exact absurd hcrash (noCrash_apply h hle hN hop hmemory)

end Experiment

/-!
## Runs
-/

inductive Machine.Begins (N : Nat) : Nat -> Nat -> Machine ℝ -> Prop where
  | start {before m : Machine ℝ} (hstart : before.start N = .ok m) :
      Begins N N before.store.chunk m
  | chunk {L k : Nat} {data : Buffer ℝ} {store : Store ℝ} (hL : L ≤ N)
      (hk : k < twoPow (2 * (N - L))) (hstore : Store.ofChunk L k data = .ok store)
      (classical : Classical) (settings : Settings ℝ) :
      Begins N L k { Machine.ofChunk store N with classical := classical, settings := settings }

/-- Experiments that calls of admissible instructions lead to, whether they succeed or fail. -/
inductive Experiment.Reached (start : Experiment ℝ) : Experiment ℝ -> Prop where
  | start : Reached start start
  | call {e : Experiment ℝ} {op : Instruction ℝ} (before : Reached start e)
      (hop : op.IsAdmissible) (hmemory : e.Allocates op) :
      Reached start (Experiment.InPlace.apply op false e).2

theorem Machine.Begins.hasShape {N L k : Nat} {m : Machine ℝ} (h : m.Begins N L k)
    (hN : 4 * N < wordBits) : L ≤ N ∧ m.HasShape N L k := by
  cases h with
  | start hstart =>
      rw [start_of_lt _ hN] at hstart
      cases hstart
      exact ⟨Nat.le_refl N, rfl, ⟨rfl, Buffer.size_tabulate _ _⟩, rfl⟩
  | chunk hL _ hstore classical settings =>
      rcases Store.eq_of_ofChunk hstore with ⟨⟨_, hsize⟩, rfl⟩
      exact ⟨hL, Nat.max_eq_left hL, ⟨rfl, hsize⟩, rfl⟩

namespace Experiment

variable {N L k : Nat} {start e : Experiment ℝ} {op : Instruction ℝ}

theorem Reached.hasShape (hreached : Reached start e) (hstart : start.machine.HasShape N L k)
    (hle : L ≤ N) (hN : 4 * N < wordBits) : e.machine.HasShape N L k := by
  -- None of the calls crashes, so that each leaves what it leaves at once.
  induction hreached with
  | start =>
      exact hstart
  | call before hop hmemory ih =>
      rw [inPlace_apply_eq ih hle hN hop hmemory]
      exact hasShape_apply ih _

/-- From a start, or from a chunk of a register, on, every call leaves the store with all of
its entries, the width of the register and the place of the chunk as they were; and the next
call finds all entries that it comes to, so that it succeeds or is refused. -/
theorem noCrash_of_reached (hN : 4 * N < wordBits) (hbegins : start.machine.Begins N L k)
    (hreached : Reached start e) (hop : op.IsAdmissible) (hmemory : e.Allocates op) :
    e.machine.HasShape N L k ∧ NoCrash (InPlace.apply op false e).1 := by
  rcases hbegins.hasShape hN with ⟨hle, hstart⟩
  have hshape := hreached.hasShape hstart hle hN
  refine ⟨hshape, ?_⟩
  rw [inPlace_apply_eq hshape hle hN hop hmemory]
  exact noCrash_apply hshape hle hN hop hmemory

noncomputable def lastChunk : Experiment ℝ :=
  { machine := .ofChunk ⟨1, 3, #[0, 0, 0, 1]⟩ 2
    archive := .empty
    source := .ofSeed 0 }

/-- After a reset of its own qubit, the chunk refuses a diagonal of three entries for the
other one. -/
theorem noCrash_of_reached_lastChunk :
    lastChunk.machine.Begins 2 1 3 ∧
      Reached lastChunk (InPlace.apply (.reset [0]) false lastChunk).2 ∧
      (InPlace.apply (.reset [0]) false lastChunk).2.machine.HasShape 2 1 3 ∧
      NoCrash (InPlace.apply (.diagonal [1] #[1, 0, 1]) false
        (InPlace.apply (.reset [0]) false lastChunk).2).1 := by
  have hstore : Store.ofChunk 1 3 #[0, 0, 0, 1] = .ok (⟨1, 3, #[0, 0, 0, 1]⟩ : Store ℝ) := rfl
  have hbegins : lastChunk.machine.Begins 2 1 3 :=
    .chunk (by decide) (by decide) hstore .empty .standard
  have hnone : Classical.HasRoom [] := ⟨by decide, fun _ hslot => (nomatch hslot)⟩
  have hreset : (Instruction.reset [0] : Instruction ℝ).IsAdmissible :=
    ⟨by decide, hnone, hnone⟩
  have hdiagonal : (Instruction.diagonal [1] #[1, 0, 1] : Instruction ℝ).IsAdmissible :=
    ⟨by decide, hnone, hnone⟩
  have hreached : Reached lastChunk (InPlace.apply (.reset [0]) false lastChunk).2 :=
    .call .start hreset fun _ _ _ => rfl
  exact ⟨hbegins, hreached,
    noCrash_of_reached (by decide) hbegins hreached hdiagonal fun _ _ hbuilds => hbuilds.elim⟩

end Experiment

end MixedState
