import MixedState.Proofs.InPlace.Experiment
import MixedState.Proofs.Machine.Losses
import MixedState.Proofs.Machine.Readouts

/-!
# Instructions that name a qubit twice

An instruction that ought to keep the trace is harmless where it is refused, or keeps the
trace; and a reset has to leave its qubits in zero.  On qubits that repeat this holds only
where no size overruns, where nothing is lost from the trace, and where a reset comes to
every block that has weight.
-/

namespace MixedState

open MixedState.Basis

/-!
## Reduced matrices
-/

namespace Machine

variable {n : Nat} {m : Machine ℝ} {qs : List Nat}

theorem Lists.partialTrace_of_lt (h : m.Lists n qs) (hlen : n < qs.length) :
    m.partialTrace qs = crash := by
  unfold partialTrace
  rw [h.width, decide_eq_false (Nat.not_le_of_lt hlen)]
  rfl

theorem Lists.reduced_eq_partialTrace (h : m.Lists n qs) (hrepeats : ¬qs.Nodup) (final : Bool) :
    (m.reduced qs final).1 = m.partialTrace qs := by
  have hne : qs.isEmpty = false := by
    cases qs with
    | nil =>
        exact absurd List.nodup_nil hrepeats
    | cons q rest =>
        rfl
  have hpart : m.isWholeRegister qs = false := by
    apply Bool.eq_false_iff.mpr
    intro hall
    have hrange : qs = List.range m.width := eq_of_beq hall
    rw [hrange] at hrepeats
    exact hrepeats List.nodup_range
  unfold reduced
  rw [requireWhole_of_whole h.width_eq, hne, hpart]
  rfl

end Machine

theorem Archive.noCrash_save {R : Type} [Scalar R] (archive : Archive R)
    (memory key what : String) (mode : SaveMode) (data : SavedData R) :
    NoCrash (archive.save memory key what mode data) := by
  have haverage : forall (slots : KeyMap (Average R)) (slot : String),
      NoCrash (addAverage slots slot data what) := by
    intro slots slot
    unfold addAverage
    split
    · exact noCrash_ok _
    · split
      · exact noCrash_ok _
      · exact noCrash_refuse _
  unfold save
  split
  · exact noCrash_ok _
  · exact noCrash_ok _
  · exact (haverage _ _).bind fun _ _ => noCrash_ok _
  · exact noCrash_ok _
  · exact noCrash_ok _
  · exact (haverage _ _).bind fun _ _ => noCrash_ok _

/-!
## Steps
-/

structure Step.Ends (n : Nat) (e : Experiment ℝ) (overruns : Prop) (loss : Amplitude ℝ)
    (step : Step ℝ) : Prop where
  crashes : overruns -> step.1 = crash
  answers : ¬overruns -> NoCrash step.1
  full : step.1 = .ok () -> step.2.machine.IsFull n
  trace : step.1 = .ok () ->
    step.2.machine.store.data.trace n = e.machine.store.data.trace n - loss

theorem Step.Ends.of_agree {n : Nat} {e : Experiment ℝ} {overruns : Prop}
    {loss : Amplitude ℝ} {inPlace atOnce : Step ℝ} (h : Step.Ends n e overruns loss atOnce)
    (hagree : Procedure.Agree inPlace atOnce) : Step.Ends n e overruns loss inPlace := by
  rcases hagree with rfl | ⟨hinPlace, hatOnce⟩
  · exact h
  · have hover : overruns := by
      by_contra hroom
      exact h.answers hroom hatOnce
    refine ⟨fun _ => hinPlace, fun hroom => absurd hover hroom, ?_, ?_⟩
    · intro hok
      rw [hinPlace] at hok
      cases hok
    · intro hok
      rw [hinPlace] at hok
      cases hok

namespace Experiment

variable {n : Nat} {e : Experiment ℝ} {op : Instruction ℝ}

theorem ends_evolve {overruns : Prop} {loss : Amplitude ℝ} {result : Outcome (Machine ℝ)}
    (h : e.machine.Ends n overruns loss result) :
    Step.Ends n e overruns loss (e.evolve result) := by
  by_cases hoverruns : overruns
  · rw [h.crashes hoverruns]
    exact ⟨fun _ => rfl, fun hroom => absurd hoverruns hroom, fun hok => (nomatch hok),
      fun hok => (nomatch hok)⟩
  · have hloses := h.loses hoverruns
    cases result with
    | error fault =>
        rcases hloses.answers.eq_refuse rfl with ⟨cause, rfl⟩
        exact ⟨fun hover => absurd hover hoverruns, fun _ => noCrash_refuse cause,
          fun hok => (nomatch hok), fun hok => (nomatch hok)⟩
    | ok m =>
        exact ⟨fun hover => absurd hover hoverruns, fun _ => noCrash_ok (),
          fun _ => hloses.full m rfl, fun _ => hloses.trace m rfl⟩

theorem noCrash_file {result : Outcome (Archive ℝ)} (h : NoCrash result) :
    NoCrash (e.file result).1 := by
  rw [InPlace.file_eq]
  exact Procedure.noCrash_settle (h.bind fun _ _ => noCrash_ok _)

theorem ends_saveDensmat (h : e.machine.Lists n op.qubits) (hrepeats : ¬op.qubits.Nodup) :
    Step.Ends n e (op.texts ≠ [] ∧ n < op.qubits.length) 0 (e.saveDensmat op false) := by
  have hkept := e.machine_saveDensmat op
  have hfull : (e.saveDensmat op false).2.machine.IsFull n := by
    rw [hkept]
    exact h.toIsFull
  have htrace : (e.saveDensmat op false).2.machine.store.data.trace n =
      e.machine.store.data.trace n - 0 := by
    rw [hkept, sub_zero]
  refine ⟨?_, ?_, fun _ => hfull, fun _ => htrace⟩
  · rintro ⟨htexts, hlen⟩
    rcases List.exists_cons_of_ne_nil htexts with ⟨key, rest, hcons⟩
    unfold saveDensmat saveKey Instruction.key? saveMatrix
    rw [hcons]
    dsimp only [List.head?_cons]
    rw [h.reduced_eq_partialTrace hrepeats, h.partialTrace_of_lt hlen]
    rfl
  · intro hroom
    unfold saveDensmat saveKey Instruction.key?
    cases htexts : op.texts with
    | nil =>
        exact noCrash_refuse _
    | cons key rest =>
        have hlen : op.qubits.length ≤ n := by
          by_contra hlong
          exact hroom ⟨by rw [htexts]; exact List.cons_ne_nil key rest, Nat.lt_of_not_le hlong⟩
        have hn := h.small
        have hfull := h.full
        have hinside := h.inside
        rw [← h.width] at hn hfull hinside hlen
        dsimp only [List.head?_cons]
        unfold saveMatrix
        rw [h.reduced_eq_partialTrace hrepeats, Machine.partialTrace_eq_ok hn hfull hlen hinside]
        exact noCrash_file (Archive.noCrash_save _ _ _ _ _ _)

theorem ends_perform (h : e.machine.Lists n op.qubits) (hrepeats : ¬op.qubits.Nodup)
    (hlawful : op.IsLawful) :
    Step.Ends n e (op.Overruns n) (op.loss n (e.machine.store.data.toEntries n))
      (e.perform op false) := by
  have hne : op.qubits ≠ [] := by
    intro hnil
    rw [hnil] at hrepeats
    exact hrepeats List.nodup_nil
  by_cases hop : op.kind.isOperator = true
  · rw [perform_eq_evolve hop]
    exact ends_evolve (Instruction.ends_operate hop hlawful h hne)
  · have hkind : op.kind = .saveDensmat := by
      unfold Instruction.IsLawful at hlawful
      cases hkind : op.kind with
      | saveDensmat =>
          rfl
      | gate | matrix | kraus | reset =>
          exact absurd (by rw [hkind]; rfl) hop
      | diagonal | superop | measure | barrier | bfunc | errorLocation | readoutError
      | setStatevec | setDensmat | saveExpval | saveExpvalVar | saveProbs | saveProbsKet
      | saveAmpsSq | saveState | jump | mark | prepare | saveStatevec | saveAmps
      | setStabilizer =>
          rw [hkind] at hlawful
          exact hlawful.elim
    unfold Instruction.Overruns Instruction.loss perform
    rw [hkind]
    exact ends_saveDensmat h hrepeats

end Experiment

/-!
## Readouts
-/

section Readouts

variable {n q : Nat} {qs : List Nat} {m m' : Machine ℝ}

noncomputable def setWeight (n : Nat) (ρ : Entries) (q : Nat) : ℝ :=
  ∑ x ∈ Finset.range (twoPow n), if x.testBit q then (ρ x x).re else 0

/-- The part of it that lies in blocks that a reset does not come to. -/
noncomputable def missed (n : Nat) (qs : List Nat) (ρ : Entries) (q : Nat) : ℝ :=
  ∑ x ∈ Finset.range (twoPow n),
    if x.testBit q && !visitsDiagonal n qs x then (ρ x x).re else 0

namespace Machine

theorem IsFull.store_trace (h : m.IsFull n) :
    m.store.trace = .ok (m.store.data.trace n).re := by
  rw [h.trace_eq_ok h.small h.full]
  unfold Buffer.trace
  rw [Amplitude.re_sum]

theorem IsFull.re_trace {t : ℝ} (h : m.IsFull n) (htrace : m.store.trace = .ok t) :
    (m.store.data.trace n).re = t := by
  rw [h.store_trace] at htrace
  exact Except.ok.inj htrace

theorem IsRegister.isFull {t : ℝ} (h : m.IsRegister n) (hn : 2 * n < wordBits)
    (htrace : m.store.trace = .ok t) : m.IsFull n := by
  refine ⟨h, ?_, hn⟩
  unfold Store.trace at htrace
  rcases bind_eq_ok_iff.mp htrace with ⟨weights, hweights, _⟩
  have hsize := (Store.probabilities_eq_ok_iff.mp hweights).1.2
  rw [h.qubits, ← twoPow_two_mul] at hsize
  have hpos := twoPow_pos (2 * n)
  rcases h.size with hfull | hempty
  · exact hfull
  · omega

theorem IsFull.outcomeProbabilities_singleton (h : m.IsFull n) (hq : q < n) :
    m.outcomeProbabilities [q] = .ok
      [(m.store.data.trace n).re - setWeight n (m.store.data.toEntries n) q,
        setWeight n (m.store.data.toEntries n) q] := by
  have hwhole := h.width_eq
  have hsmall := h.small
  have hinside : forall p, p ∈ [q] -> p < m.width := by
    intro p hp
    rw [List.mem_singleton.mp hp, h.width]
    exact hq
  have hset : m.store.marginal [q] 1 = setWeight n (m.store.data.toEntries n) q := by
    rw [marginal_eq_sum hwhole, h.width]
    apply Finset.sum_congr rfl
    intro x _
    cases hbit : x.testBit q <;> simp [hbit]
  have hunset : m.store.marginal [q] 0 =
      (m.store.data.trace n).re - setWeight n (m.store.data.toEntries n) q := by
    unfold Buffer.trace setWeight
    rw [marginal_eq_sum hwhole, h.width, Amplitude.re_sum, ← Finset.sum_sub_distrib]
    apply Finset.sum_congr rfl
    intro x _
    cases hbit : x.testBit q <;> simp [hbit]
  have hroom : twoPow m.store.qubits * twoPow m.store.qubits ≤ m.store.data.size := by
    rw [h.qubits, h.full, twoPow_two_mul]
  have hstore : m.store.qubits < wordBits := by
    rw [h.qubits]
    omega
  refine (outcomeProbabilities_eq_ok_iff hwhole hinside).mpr
    ⟨⟨hstore, hroom, Or.inl (by decide : 1 < 60)⟩, ?_⟩
  change _ = [m.store.marginal [q] 0, m.store.marginal [q] 1]
  rw [hset, hunset]

theorem Lists.setWeight_applyReset (h : m.Lists n qs) (hq : q ∈ qs)
    (hstep : m.applyReset qs = .ok m') :
    setWeight n (m'.store.data.toEntries n) q = missed n qs (m.store.data.toEntries n) q := by
  have hlen : qs.length < 15 := by
    by_contra hlong
    rw [h.ends_applyReset.crashes (Nat.le_of_not_lt hlong)] at hstep
    cases hstep
  rcases h.exists_applyReset hlen with ⟨columns, happly, hsize, hsuperop⟩
  have hgives := Kernel.gives_channel h.inside (Nat.le_of_lt h.small) (by omega)
    (Nat.le_of_eq hsize.symm) hsuperop
  rcases hgives m.store.data h.full with ⟨b, hb, _, hentries⟩
  rw [happly, onData_of_eq_ok hb] at hstep
  cases hstep
  apply Finset.sum_congr rfl
  intro x hx
  have hx := Finset.mem_range.mp hx
  change (if x.testBit q = true then (b.toEntries n x x).re else 0) = _
  rw [hentries x x hx hx]
  by_cases hbit : x.testBit q = true
  · rw [channelPass_resetOperators hq hbit, hbit]
    cases visitsDiagonal n qs x <;> simp
  · simp [hbit]

end Machine

end Readouts

/-!
## Harmless steps
-/

namespace Experiment

variable {n : Nat} {e : Experiment ℝ} {op : Instruction ℝ} {step left : Step ℝ}

/-- A step that does not crash, leaves the experiment where it is refused, and otherwise a
trace of one; a reset that runs leaves its qubits unset for sure. -/
structure Harmless (e : Experiment ℝ) (op : Instruction ℝ) (step : Step ℝ) : Prop where
  answers : NoCrash step.1
  refused : forall cause, step.1 = .error (.refused cause) -> step.2 = e
  trace : step.1 = .ok () -> step.2.machine.store.trace = .ok 1
  zero : op.kind = .reset -> e.machine.classical.allows op = true -> step.1 = .ok () ->
    forall q, q ∈ op.qubits -> step.2.machine.outcomeProbabilities [q] = .ok [1, 0]

theorem apply_of_not_allows (hskipped : ¬e.machine.classical.allows op = true) :
    InPlace.apply op false e = (.ok (), e) := by
  have hnot : e.machine.classical.allows op = false := Bool.eq_false_iff.mpr hskipped
  change (if (!e.machine.classical.allows op) = true then pure ()
    else _ : Procedure (Experiment ℝ) Unit) e = _
  rw [hnot]
  rfl

theorem ends_apply (h : e.machine.Lists n op.qubits) (hrepeats : ¬op.qubits.Nodup)
    (hlawful : op.IsLawful) (hallows : e.machine.classical.allows op = true) :
    Step.Ends n e (op.Overruns n) (op.loss n (e.machine.store.data.toEntries n))
      (InPlace.apply op false e) := by
  have hinside : forall q, q ∈ op.qubits -> q < e.machine.width := by
    rw [h.width]
    exact h.inside
  have hends := ends_perform h hrepeats hlawful
  rw [← apply_of_allows hallows hinside] at hends
  exact hends.of_agree (InPlace.agree_apply false)

theorem outcomeProbabilities_reset {q : Nat} (h : e.machine.Lists n op.qubits)
    (hrepeats : ¬op.qubits.Nodup) (hkind : op.kind = .reset)
    (hallows : e.machine.classical.allows op = true) (hq : q ∈ op.qubits)
    (hok : (InPlace.apply op false e).1 = .ok ()) :
    (InPlace.apply op false e).2.machine.outcomeProbabilities [q] = .ok
      [(e.machine.store.data.trace n).re
          - missed n op.qubits (e.machine.store.data.toEntries n) q,
        missed n op.qubits (e.machine.store.data.toEntries n) q] := by
  have hlawful : op.IsLawful := by
    unfold Instruction.IsLawful
    rw [hkind]
    trivial
  have hends := ends_apply h hrepeats hlawful hallows
  have hloss : op.loss n (e.machine.store.data.toEntries n) = 0 := by
    unfold Instruction.loss
    rw [hkind]
  have htrace := hends.trace hok
  rw [hloss, sub_zero] at htrace
  have hinside : forall q, q ∈ op.qubits -> q < e.machine.width := by
    rw [h.width]
    exact h.inside
  have hstep : InPlace.apply op false e = e.evolve (e.machine.applyReset op.qubits) := by
    have hperform : e.perform op false = e.evolve (e.machine.applyReset op.qubits) := by
      unfold perform
      rw [hkind]
    rw [← hperform, ← apply_of_allows hallows hinside]
    have hagree : Procedure.Agree (InPlace.apply op false e) (e.apply op false) :=
      InPlace.agree_apply false
    rcases hagree with hsame | ⟨hcrash, _⟩
    · exact hsame
    · rw [hok] at hcrash
      cases hcrash
  rw [(hends.full hok).outcomeProbabilities_singleton (h.inside q hq), htrace]
  rw [hstep] at hok ⊢
  cases hreset : e.machine.applyReset op.qubits with
  | error fault =>
      rw [hreset] at hok
      cases hok
  | ok m' =>
      change Except.ok [_ - setWeight n (m'.store.data.toEntries n) q,
        setWeight n (m'.store.data.toEntries n) q] = _
      rw [h.setWeight_applyReset hq hreset]

theorem refused_apply {cause : Refusal}
    (h : (InPlace.apply op false e).1 = .error (.refused cause)) :
    (InPlace.apply op false e).2 = e := by
  have hsame := (InPlace.agree_apply false).eq_of_refused (Or.inl h)
  rw [hsame] at h ⊢
  exact apply_of_error h

theorem harmless_of_not_allows (htrace : e.machine.store.trace = .ok 1)
    (hskipped : ¬e.machine.classical.allows op = true) :
    e.Harmless op (InPlace.apply op false e) := by
  rw [apply_of_not_allows hskipped]
  exact ⟨noCrash_ok (), fun _ hrefused => (nomatch hrefused), fun _ => htrace,
    fun _ hallows => absurd hallows hskipped⟩

theorem harmless_of_kept (h : e.machine.Lists n op.qubits)
    (htrace : (e.machine.store.data.trace n).re = 1) (hrepeats : ¬op.qubits.Nodup)
    (hlawful : op.IsLawful) (hallows : e.machine.classical.allows op = true)
    (hroom : ¬op.Overruns n)
    (hkept : (InPlace.apply op false e).1 = .ok () ->
      (op.loss n (e.machine.store.data.toEntries n)).re = 0 ∧
        (op.kind = .reset -> forall q, q ∈ op.qubits ->
          missed n op.qubits (e.machine.store.data.toEntries n) q = 0)) :
    e.Harmless op (InPlace.apply op false e) := by
  have hends := ends_apply h hrepeats hlawful hallows
  refine ⟨hends.answers hroom, fun _ => refused_apply, ?_, ?_⟩
  · intro hok
    have hre : (e.machine.store.data.trace n
        - op.loss n (e.machine.store.data.toEntries n)).re = 1 := by
      change (e.machine.store.data.trace n).re - (op.loss n _).re = 1
      rw [(hkept hok).1, sub_zero, htrace]
    rw [(hends.full hok).store_trace, hends.trace hok, hre]
  · intro hkind _ hok q hq
    rw [outcomeProbabilities_reset h hrepeats hkind hallows hq hok, (hkept hok).2 hkind q hq,
      sub_zero, htrace]

/-- A gate that is no dense matrix is harmless: each of its flips, signs and exchanges moves
the basis states of the register. -/
theorem harmless_of_sparse {gate : Gate} (h : e.machine.IsRegister n) (hn : 2 * n < wordBits)
    (htrace : e.machine.store.trace = .ok 1) (hqs : forall q, q ∈ op.qubits -> q < n)
    (hrepeats : ¬op.qubits.Nodup) (hkind : op.kind = .gate)
    (hgate : Gate.ofName? op.name = some gate) (hreal : forall a, a ∈ op.params -> a.im = 0)
    (hsparse : forall u, gate.action op ≠ .matrix u) :
    e.Harmless op (InPlace.apply op false e) := by
  have hlists : e.machine.Lists n op.qubits := ⟨h.isFull hn htrace, hqs⟩
  have hone : (e.machine.store.data.trace n).re = 1 := hlists.re_trace htrace
  have hlawful : op.IsLawful := by
    unfold Instruction.IsLawful
    rw [hkind]
    exact hreal
  have hroom : ¬op.Overruns n := by
    unfold Instruction.Overruns
    rw [hkind]
    exact id
  have hloss : op.loss n (e.machine.store.data.toEntries n) = 0 := by
    unfold Instruction.loss
    rw [hkind, hgate]
    dsimp only
    cases haction : gate.action op with
    | matrix u =>
        exact absurd haction (hsparse u)
    | nothing | sided | diagonal | swap | pauli =>
        rfl
  by_cases hallows : e.machine.classical.allows op = true
  · apply harmless_of_kept hlists hone hrepeats hlawful hallows hroom
    intro _
    rw [hloss, hkind]
    exact ⟨rfl, fun hreset => (nomatch hreset)⟩
  · exact harmless_of_not_allows htrace hallows

/-- On a register of trace one, an instruction that names a qubit twice and ought to keep
the trace is harmless just when it does not run, or no size overruns, nothing is lost from
the trace, and a reset comes to everything that its qubits weigh. -/
theorem harmless_iff (h : e.machine.IsRegister n) (hn : 2 * n < wordBits)
    (htrace : e.machine.store.trace = .ok 1) (hqs : forall q, q ∈ op.qubits -> q < n)
    (hrepeats : ¬op.qubits.Nodup) (hlawful : op.IsLawful) :
    e.Harmless op (InPlace.apply op false e) ↔
      (e.machine.classical.allows op = true -> ¬op.Overruns n ∧
        ((InPlace.apply op false e).1 = .ok () ->
          (op.loss n (e.machine.store.data.toEntries n)).re = 0 ∧
            (op.kind = .reset -> forall q, q ∈ op.qubits ->
              missed n op.qubits (e.machine.store.data.toEntries n) q = 0))) := by
  have hlists : e.machine.Lists n op.qubits := ⟨h.isFull hn htrace, hqs⟩
  have hone : (e.machine.store.data.trace n).re = 1 := hlists.re_trace htrace
  constructor
  · intro hharmless hallows
    have hends := ends_apply hlists hrepeats hlawful hallows
    refine ⟨fun hover => hharmless.answers (hends.crashes hover), fun hok => ⟨?_, ?_⟩⟩
    · have hkept := hharmless.trace hok
      rw [(hends.full hok).store_trace, hends.trace hok] at hkept
      have hre : (e.machine.store.data.trace n).re
          - (op.loss n (e.machine.store.data.toEntries n)).re = 1 := Except.ok.inj hkept
      linarith
    · intro hkind q hq
      have hzero := hharmless.zero hkind hallows hok q hq
      rw [outcomeProbabilities_reset hlists hrepeats hkind hallows hq hok] at hzero
      have hweights := Except.ok.inj hzero
      exact (List.cons.inj (List.cons.inj hweights).2).1
  · intro hcondition
    by_cases hallows : e.machine.classical.allows op = true
    · rcases hcondition hallows with ⟨hroom, hkept⟩
      exact harmless_of_kept hlists hone hrepeats hlawful hallows hroom hkept
    · exact harmless_of_not_allows htrace hallows

noncomputable def excited : Experiment ℝ :=
  { machine := .ofStore ⟨1, 0, #[0, 0, 0, 1]⟩
    archive := .empty
    source := .ofSeed 0 }

/-- A reset that names the qubit twice has four bits to clear where there are two.  It comes
to no block, and the qubit stays set. -/
theorem harmless_iff_excited :
    excited.machine.store.trace = .ok 1 ∧
      (InPlace.apply (.reset [0, 0]) false excited).1 = .ok () ∧
      ¬excited.Harmless (.reset [0, 0]) (InPlace.apply (.reset [0, 0]) false excited) := by
  have hregister : excited.machine.IsRegister 1 := ⟨rfl, rfl, Or.inl rfl⟩
  have htrace : excited.machine.store.trace = .ok 1 := by
    rw [hregister.trace_eq_ok (by decide) rfl]
    change Except.ok (∑ x ∈ Finset.range 2, _) = _
    rw [Finset.sum_range_succ, Finset.sum_range_one]
    change Except.ok ((0 : ℝ) + 1) = _
    rw [zero_add]
  have hok : (InPlace.apply (.reset [0, 0]) false excited).1 = .ok () := rfl
  have hmissed : missed 1 [0, 0] (excited.machine.store.data.toEntries 1) 0 = 1 := by
    have hunvisited : visitsDiagonal 1 [0, 0] 1 = false := by decide
    change ∑ x ∈ Finset.range 2, _ = _
    rw [Finset.sum_range_succ, Finset.sum_range_one, hunvisited]
    change (0 : ℝ) + 1 = 1
    rw [zero_add]
  have hlawful : (Instruction.reset [0, 0] : Instruction ℝ).IsLawful := trivial
  refine ⟨htrace, hok, ?_⟩
  rw [harmless_iff hregister (by decide) htrace (by decide) (by decide) hlawful]
  intro hcondition
  have hzero : missed 1 [0, 0] _ 0 = 0 := ((hcondition rfl).2 hok).2 rfl 0 (by decide)
  rw [hmissed] at hzero
  exact one_ne_zero hzero

end Experiment

end MixedState
