import MixedState.Proofs.Exact
import MixedState.Proofs.Machine.Saves

/-!
# Starting a register

A start keeps nothing of the old register but the place of its chunk.  The new register
is whole and has the zero state, unless the old store was a chunk other than the first:
then it has zeros only, and runs on it give other results than on a fresh machine.
-/

namespace MixedState

variable {R : Type} [Scalar R]

namespace Store

def zeroState (n : Nat) : Buffer R :=
  Buffer.tabulate (twoPow (2 * n)) fun i => if i = 0 then 1 else 0

theorem entryCount_eq_ok_iff {n count : Nat} :
    entryCount n = .ok count ↔
      2 * n < wordBits ∧ count * 16 < bufferLimit ∧ count = twoPow (2 * n) := by
  unfold entryCount
  constructor
  · intro h
    rcases bind_eq_ok_iff.mp h with ⟨size, hsize, h⟩
    rcases checkedShift_eq_ok_iff.mp hsize with ⟨hn, rfl⟩
    rcases bind_eq_ok_iff.mp h with ⟨_, hlimit, h⟩
    cases h
    exact ⟨hn, allocate_eq_ok_iff.mp hlimit, rfl⟩
  · rintro ⟨hn, hlimit, rfl⟩
    rw [checkedShift_of_lt hn, ok_bind, allocate_of_lt hlimit]
    rfl

theorem entryCount_of_lt {n : Nat} (hn : 4 * n < wordBits) :
    entryCount n = .ok (twoPow (2 * n)) := by
  have hword : wordBits = 64 := rfl
  exact entryCount_eq_ok_iff.mpr ⟨by omega, twoPow_mul_sixteen_lt_iff.mpr (by omega), rfl⟩

theorem probability_zero {s : Store R} (hn : s.qubits < wordBits) (hdata : 0 < s.data.size) :
    s.probability 0 = .ok (s.data.entry 0).re := by
  unfold probability dim
  rw [checkedShift_of_lt hn, ok_bind, Nat.zero_mul]
  change (orCrash (decide (0 < s.data.size)) >>= _) = _
  rw [orCrash_of_true (decide_eq_true hdata)]
  rfl

/-- The store of `n` qubits after a start, which is zero on every chunk but the first. -/
def started (s : Store R) (n count : Nat) : Store R :=
  ⟨n, s.chunk, Buffer.tabulate count fun i => if i = 0 ∧ s.chunk = 0 then 1 else 0⟩

theorem data_started (s : Store R) (n : Nat) :
    (s.started n (twoPow (2 * n))).data =
      if s.chunk = 0 then zeroState n else Buffer.tabulate (twoPow (2 * n)) fun _ => 0 := by
  unfold started zeroState
  by_cases hchunk : s.chunk = 0
  · simp only [hchunk, and_true, if_true]
  · simp only [hchunk, and_false, if_false]

end Store

namespace Machine

theorem start_eq (m : Machine R) (n : Nat) :
    m.start n = (Store.entryCount n).map fun count =>
      { m with store := m.store.started n count, width := n } := by
  unfold start Store.resize Store.reset
  cases hcount : Store.entryCount n with
  | error fault =>
      rfl
  | ok count =>
      rw [ok_bind, pure_bind, hcount]
      rfl

theorem start_of_lt (m : Machine R) {n : Nat} (hn : 4 * n < wordBits) :
    m.start n = .ok { m with store := m.store.started n (twoPow (2 * n)), width := n } := by
  rw [start_eq, Store.entryCount_of_lt hn]
  rfl

end Machine

/-!
## Results of runs
-/

def Step.results (step : Step R) : Outcome Unit × Classical × Archive R × Source :=
  (step.1, step.2.machine.classical, step.2.archive, step.2.source)

def Machine.begin (m : Machine R) (classical : Classical) (settings : Settings R)
    (archive : Archive R) (source : Source) : Experiment R :=
  ⟨{ m with classical := classical, settings := settings }, archive, source⟩

/-- Beginning alike, every run of instructions gives the same results on both. -/
def Machine.SameRuns (m m' : Machine R) : Prop :=
  forall classical settings archive source ops final,
    Step.results ((m.begin classical settings archive source).applyAll ops final) =
      Step.results ((m'.begin classical settings archive source).applyAll ops final)

theorem Experiment.find?_saveAmpsSq_zero {e : Experiment R} (hsplit : e.machine.isSplit = false)
    (hwidth : e.machine.width < wordBits) (hqubits : e.machine.store.qubits < wordBits)
    (hdata : 0 < e.machine.store.data.size) (key : String) (final : Bool) :
    (e.applyAll [.saveAmpsSq [] [0] key .single] final).2.archive.latest.find? key =
      some (.vector [(e.machine.store.data.entry 0).re]) := by
  have hwhole : e.machine.requireWhole "save_amps_sq" = .ok () := by
    unfold Machine.requireWhole
    rw [hsplit]
    rfl
  have hvalues : [0].mapM e.machine.store.probability =
      (.ok [(e.machine.store.data.entry 0).re] : Outcome (List R)) := by
    rw [List.mapM_cons, Store.probability_zero hqubits hdata]
    rfl
  have hsave : e.saveAmpsSq (.saveAmpsSq [] [0] key .single) =
      .ok { e.archive with
        latest := e.archive.latest.insert key (.vector [(e.machine.store.data.entry 0).re]) } := by
    have hfind : ([0].find? fun i => decide (twoPow e.machine.width ≤ i)) = none := by
      simp [Nat.ne_of_gt (twoPow_pos e.machine.width)]
    unfold saveAmpsSq
    change (e.machine.requireWhole "save_amps_sq" >>= _) = _
    rw [hwhole, ok_bind]
    change (checkedShift e.machine.width >>= _) = _
    rw [checkedShift_of_lt hwidth, ok_bind]
    split
    · next i hi =>
        cases hfind.symm.trans hi
    · change ([0].mapM e.machine.store.probability >>= _) = _
      rw [hvalues]
      rfl
  have happly : e.apply (.saveAmpsSq [] [0] key .single) (final && true) =
      e.file (e.saveAmpsSq (.saveAmpsSq [] [0] key .single)) := rfl
  unfold applyAll
  rw [List.isEmpty_nil, happly, hsave]
  exact KeyMap.find?_insert_self _ _ _

/-!
## A start against a fresh machine
-/

namespace Machine

variable {n : Nat}

theorem begin_started (m : Machine R) (hchunk : m.store.chunk = 0) (count : Nat)
    (classical : Classical) (settings : Settings R) (archive : Archive R) (source : Source) :
    begin { m with store := m.store.started n count, width := n } classical settings archive
        source =
      begin { empty with store := empty.store.started n count, width := n } classical settings
        archive source := by
  unfold begin Store.started
  rw [hchunk]
  rfl

theorem not_sameRuns {m m' : Machine R} (hm : m.width = n ∧ m.store.qubits = n)
    (hm' : m'.width = n ∧ m'.store.qubits = n) (hn : n < wordBits)
    (hdata : 0 < m.store.data.size) (hdata' : 0 < m'.store.data.size)
    (hne : (m.store.data.entry 0).re ≠ (m'.store.data.entry 0).re) : ¬m.SameRuns m' := by
  have hread : forall machine : Machine R, machine.width = n ∧ machine.store.qubits = n ->
      0 < machine.store.data.size ->
      ((machine.begin .empty .standard .empty (.ofSeed 0)).applyAll
        [.saveAmpsSq [] [0] "first" .single] false).2.archive.latest.find? "first" =
          some (.vector [(machine.store.data.entry 0).re]) := by
    rintro machine ⟨hwidth, hqubits⟩ hsize
    apply Experiment.find?_saveAmpsSq_zero (e := machine.begin .empty .standard .empty (.ofSeed 0))
    · exact decide_eq_false (by
        change ¬machine.store.qubits < machine.width
        omega)
    · exact hwidth ▸ hn
    · exact hqubits ▸ hn
    · exact hsize
  intro hsame
  have hresults := congrArg (fun results => results.2.2.1.latest.find? "first")
    (hsame .empty .standard .empty (.ofSeed 0) [.saveAmpsSq [] [0] "first" .single] false)
  have hvalue := (hread m hm hdata).symm.trans (hresults.trans (hread m' hm' hdata'))
  injection hvalue with hvalue
  injection hvalue with hvalue
  injection hvalue with hvalue
  exact hne hvalue

/-- A start succeeds on every machine or on none.  It leaves a whole register of `n` qubits
in the zero state, as on a fresh machine, if the old store was the first chunk or no chunk
at all.  Otherwise it leaves zeros only, and later runs notice. -/
theorem start_alike (hone : (1 : R) ≠ 0) (m : Machine R) (n : Nat) :
    Alike (fun fresh started : Machine R =>
        (started.isSplit = false ∧ started.width = n ∧ started.store.qubits = n) ∧
        fresh.store.data = Store.zeroState n ∧
        started.store.data = (if m.store.chunk = 0 then Store.zeroState n
          else Buffer.tabulate (twoPow (2 * n)) fun _ => 0) ∧
        (fresh.SameRuns started ↔ m.store.chunk = 0))
      (empty.start n) (m.start n) := by
  rw [start_eq, start_eq]
  cases hcount : Store.entryCount n with
  | error fault =>
      exact .error fault
  | ok count =>
      rcases Store.entryCount_eq_ok_iff.mp hcount with ⟨hn, _, rfl⟩
      have hfirst : 0 < twoPow (2 * n) := twoPow_pos _
      refine .ok ⟨⟨decide_eq_false (Nat.lt_irrefl n), rfl, rfl⟩, Store.data_started _ n,
        Store.data_started _ n, ?_⟩
      constructor
      · intro hsame
        by_contra hchunk
        have hword : n < wordBits := by omega
        refine not_sameRuns ?_ ?_ hword ?_ ?_ ?_ hsame
        · exact ⟨rfl, rfl⟩
        · exact ⟨rfl, rfl⟩
        · change 0 < (Buffer.tabulate _ _).size
          rw [Buffer.size_tabulate]
          exact hfirst
        · change 0 < (Buffer.tabulate _ _).size
          rw [Buffer.size_tabulate]
          exact hfirst
        · change ((Buffer.tabulate _ _).entry 0).re ≠ ((Buffer.tabulate _ _).entry 0).re
          rw [Buffer.entry_tabulate_of_lt _ hfirst, Buffer.entry_tabulate_of_lt _ hfirst,
            if_pos ⟨rfl, rfl⟩, if_neg fun h => hchunk h.2]
          exact hone
      · intro hchunk classical settings archive source ops final
        rw [begin_started m hchunk]

theorem start_alike_chunk :
    exists started, (ofChunk ⟨1, 3, #[0, 0, 0, 1]⟩ 2 : Machine ℝ).start 1 = .ok started ∧
      started.isSplit = false ∧ started.store.data = (Buffer.tabulate 4 fun _ => 0) ∧
      exists fresh, empty.start 1 = .ok fresh ∧ ¬fresh.SameRuns started := by
  rcases (start_alike (R := ℝ) one_ne_zero (ofChunk ⟨1, 3, #[0, 0, 0, 1]⟩ 2) 1).cases with
    ⟨fresh, started, hfresh, hstarted, ⟨hwhole, _⟩, _, hdata, hruns⟩ | ⟨fault, _, hfault⟩
  · exact ⟨started, hstarted, hwhole, hdata, fresh, hfresh, fun h => nomatch hruns.mp h⟩
  · rw [start_eq, Store.entryCount_eq_ok_iff.mpr ⟨by decide, by decide, rfl⟩] at hfault
    cases hfault

end Machine

end MixedState
