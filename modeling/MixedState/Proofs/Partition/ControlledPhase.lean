import Mathlib.Analysis.SpecialFunctions.Log.Basic
import MixedState.Proofs.Partition.Refinement

/-!
# The controlled phase on a chunk

A controlled phase between two global qubits whose bits are set in the rows and in
the columns of a chunk is skipped there, while on the register it multiplies every
entry of the chunk by the factor and its conjugate.  The two agree exactly when the
product is one or the chunk is zero; on every other chunk they always agree.
-/

namespace MixedState

open MixedState.Basis

def Place.SetsBoth (place : Place) (qs : List Nat) : Prop :=
  forall q, q ∈ qs -> place.width ≤ q ∧ place.index.testBit (q - place.width) = true ∧
    place.index.testBit (q - place.width + place.globalCount) = true

theorem Place.testBit_globalBits {place : Place} {q : Nat} (onColumns : Bool)
    (hwidth : place.width ≤ q) (hq : q < place.register) :
    (place.globalBits onColumns).testBit (q - place.width) =
      place.index.testBit (q - place.width + side onColumns place.globalCount) := by
  cases onColumns with
  | false =>
      have hlow : q - place.width < place.globalCount := by
        unfold globalCount
        omega
      change (place.index % 2 ^ place.globalCount).testBit (q - place.width) = _
      rw [Nat.testBit_mod_two_pow, decide_eq_true hlow, Bool.true_and]
      rfl
  | true =>
      change (place.index / 2 ^ place.globalCount).testBit (q - place.width) = _
      rw [Nat.testBit_div_two_pow]
      rfl

theorem Place.setsBoth_iff {place : Place} {qs : List Nat}
    (hqs : forall q, q ∈ qs -> q < place.register) :
    place.SetsBoth qs ↔ place.localOf qs = [] ∧ place.holds false (place.globalOf qs) = true ∧
      place.holds true (place.globalOf qs) = true := by
  rw [holds_iff, holds_iff]
  constructor
  · intro h
    refine ⟨?_, ?_, ?_⟩
    · apply List.eq_nil_iff_forall_not_mem.mpr
      intro q hq
      rcases mem_localOf.mp hq with ⟨hmem, hlocal⟩
      exact absurd (h q hmem).1 (Nat.not_le.mpr hlocal)
    · intro q hq
      have hmem := (mem_globalOf.mp hq).1
      rw [testBit_globalBits false (h q hmem).1 (hqs q hmem)]
      exact (h q hmem).2.1
    · intro q hq
      have hmem := (mem_globalOf.mp hq).1
      rw [testBit_globalBits true (h q hmem).1 (hqs q hmem)]
      exact (h q hmem).2.2
  · rintro ⟨hlocal, hrows, hcolumns⟩ q hq
    have hwidth : ¬q < place.width := by
      intro hlt
      have hmem := mem_localOf.mpr ⟨hq, hlt⟩
      rw [hlocal] at hmem
      exact List.not_mem_nil hmem
    have hglobal := mem_globalOf.mpr ⟨hq, hwidth⟩
    have hrow := hrows q hglobal
    have hcolumn := hcolumns q hglobal
    rw [testBit_globalBits false (by omega) (hqs q hq)] at hrow
    rw [testBit_globalBits true (by omega) (hqs q hq)] at hcolumn
    exact ⟨by omega, hrow, hcolumn⟩

theorem covers_pair (p q x : Nat) :
    covers (bitMask [p, q]) x = (x.testBit p && x.testBit q) := by
  rw [covers_bitMask_eq_all]
  simp

theorem tabulate_mul_eq_iff {b : Buffer ℝ} {factor : Amplitude ℝ} :
    Buffer.tabulate b.size (fun x => b.entry x * factor) = b ↔
      factor = 1 ∨ forall x, b.entry x = 0 := by
  constructor
  · intro h
    by_cases hfactor : factor = 1
    · exact Or.inl hfactor
    · refine Or.inr fun x => ?_
      have hentry : b.entry x = b.entry x * factor := by
        by_cases hx : x < b.size
        · conv_lhs => rw [← h]
          exact Buffer.entry_tabulate_of_lt _ hx
        · rw [Buffer.entry_of_size_le (Nat.le_of_not_lt hx), zero_mul]
      have hproduct : b.entry x * (1 - factor) = 0 := by
        rw [mul_sub, mul_one, ← hentry, sub_self]
      rcases mul_eq_zero.mp hproduct with hzero | hone
      · exact hzero
      · exact absurd (sub_eq_zero.mp hone).symm hfactor
  · rintro (rfl | hzero)
    · simp only [mul_one, Buffer.tabulate_entry]
    · conv_rhs => rw [← Buffer.tabulate_entry b]
      apply Buffer.tabulate_congr
      intro x _
      rw [hzero, zero_mul]

namespace Machine

variable {place : Place} {whole chunk : Machine ℝ} {op : Instruction ℝ} {p q : Nat}

theorem checkGate_cp (hqubits : op.qubits = [p, q]) {lambda : Amplitude ℝ}
    (hparam : op.params[0]? = some lambda) : checkGate op .cp = .ok () := by
  rw [checkGate_eq_ok_iff, hqubits]
  refine ⟨fun n hn => Option.some.inj hn, ?_⟩
  rw [Array.getElem?_eq_some_iff] at hparam
  rcases hparam with ⟨hpos, _⟩
  exact hpos

theorem applyGate_cp_whole (h : IsChunkOf place chunk whole) (hname : Gate.ofName op.name = .ok .cp)
    (hqubits : op.qubits = [p, q]) (hqs : forall q, q ∈ op.qubits -> q < chunk.width)
    {lambda : Amplitude ℝ} (hparam : op.params[0]? = some lambda) :
    exists full', (Sided.phase (phaseParam op)).both whole.store.qubits op.qubits whole.store.data
        = .ok full' ∧
      whole.applyGate op = .ok (whole.withData full') ∧
      full' = Buffer.tabulate whole.store.data.size fun x =>
        whole.store.data.entry x
          * (if x.testBit p && x.testBit q then phaseParam op else 1)
          * (if x.testBit (p + chunk.width) && x.testBit (q + chunk.width) then
              (phaseParam op).conj else 1) := by
  have hword := h.lt_wordBits hqs
  have hbits : forall q, q ∈ sideBits true whole.store.qubits op.qubits -> q < wordBits := by
    rw [h.qubits]
    exact sideBits_lt_wordBits h.word hqs
  refine ⟨_, Sided.both_phase_eq_ok _ _ hword hbits, ?_, ?_⟩
  · unfold applyGate
    rw [hname, ok_bind, checkGate_cp hqubits hparam, ok_bind, h.isSplit_whole,
      if_neg Bool.false_ne_true, applyLocal_eq_enact
        (checkGate_eq_ok_iff.mp (checkGate_cp hqubits hparam)).1 h.qubits_whole_lt hword]
    exact onData_of_eq_ok (Sided.both_phase_eq_ok _ _ hword hbits)
  · rw [hqubits, h.qubits]
    apply Buffer.tabulate_congr
    intro x _
    rw [covers_pair]
    change _ * (if covers (bitMask [p + chunk.width, q + chunk.width]) x then _ else _) = _
    rw [covers_pair]

theorem applyGate_cp_chunk (h : IsChunkOf place chunk whole)
    (hname : Gate.ofName op.name = .ok .cp) (hqubits : op.qubits = [p, q])
    (hnodup : op.qubits.Nodup) (hqs : forall q, q ∈ op.qubits -> q < chunk.width)
    {lambda : Amplitude ℝ} (hparam : op.params[0]? = some lambda) {full' : Buffer ℝ}
    (hfull : (Sided.phase (phaseParam op)).both whole.store.qubits op.qubits whole.store.data
      = .ok full') :
    exists chunk', chunk.applyGate op = .ok chunk' ∧
      (IsChunk chunk.place full' chunk'.store.data ↔
        ¬chunk.place.SetsBoth op.qubits ∨ (phaseParam op).IsPhase ∨
          forall x, chunk.store.data.entry x = 0) := by
  have hcheck := checkGate_cp hqubits hparam
  have hwidth := (checkGate_eq_ok_iff.mp hcheck).1
  have happly : chunk.applyGate op = chunk.applyRouted op .cp := by
    unfold applyGate
    rw [hname, ok_bind, hcheck, ok_bind, h.isSplit_chunk, if_pos rfl]
  have hnil : forall q, q ∈ ([] : List Nat) -> q < chunk.place.width :=
    fun q hq => absurd hq List.not_mem_nil
  have happend : op.qubits = op.qubits ++ [] := (List.append_nil _).symm
  have hkernels := h.data.sided h.valid (.phase (phaseParam op)) rfl
    (happend ▸ hnodup) hqs hnil
  rw [List.append_nil, List.append_nil] at hkernels
  rcases hkernels with ⟨full1, part', hfull1, hpart', hdata⟩
  rw [h.qubits] at hfull
  cases hfull.symm.trans hfull1
  rw [happly, Place.setsBoth_iff hqs]
  by_cases hlocal : forall q, q ∈ op.qubits -> q < chunk.place.width
  · have hself := chunk.place.localOf_eq_self hlocal
    rw [hself, chunk.place.globalOf_eq_nil hlocal, Place.holds_nil, Place.holds_nil,
      Sided.sides_true_true] at hpart'
    refine ⟨chunk.withData part', ?_, fun _ => Or.inl ?_, fun _ => hdata⟩
    · rw [applyRouted_direct rfl (route_direct hlocal),
        applyLocal_of_sided rfl hwidth h.valid.word_width hlocal]
      exact onData_of_eq_ok hpart'
    · rw [hself, hqubits]
      exact fun hboth => List.cons_ne_nil _ _ hboth.1
  · obtain ⟨reduced, hreduced⟩ := exists_reducedGate (by decide : 0 < Gate.cp.controlCount)
      (hqubits ▸ List.length_filter_le _ _ :
        (chunk.place.globalOf op.qubits).length ≤ Gate.cp.controlCount)
    rw [h.applyRouted_controlled happend (by rw [hqubits]; rfl) (by decide) rfl
      (by rw [hqubits]; rfl) hqs hlocal hnil hreduced, List.append_nil]
    by_cases hskip : chunk.place.localOf op.qubits = [] ∧
        chunk.place.holds false (chunk.place.globalOf op.qubits) = true ∧
        chunk.place.holds true (chunk.place.globalOf op.qubits) = true
    -- The gate leaves the chunk alone, while its entries of the register get both factors.
    · rcases hskip with ⟨hnone, hrows, hcolumns⟩
      rw [hrows, hcolumns, hnone]
      rw [hrows, hcolumns, hnone, Sided.sides_true_true, Sided.both_phase_nil] at hpart'
      cases hpart'
      refine ⟨chunk, if_pos rfl, ?_⟩
      constructor
      · intro hsame
        exact Or.inr (tabulate_mul_eq_iff.mp (hdata.part_unique hsame))
      · rintro (hnot | hphase)
        · exact absurd ⟨rfl, rfl, rfl⟩ hnot
        · rw [tabulate_mul_eq_iff.mpr hphase] at hdata
          exact hdata
    · refine ⟨chunk.withData part', ?_, fun _ => Or.inl hskip, fun _ => hdata⟩
      rw [if_neg]
      · exact onData_of_eq_ok hpart'
      · rw [Bool.and_eq_true, Bool.and_eq_true, List.isEmpty_iff]
        exact fun hboth => hskip ⟨hboth.2, hboth.1⟩

end Machine

theorem phaseParam_eq {op : Instruction ℝ} {lambda : Amplitude ℝ}
    (hparam : op.params[0]? = some lambda) :
    Machine.phaseParam op = (Amplitude.unit * lambda).exp := by
  unfold Machine.phaseParam
  rw [hparam]

/-- The controlled phase succeeds on the register and on every chunk, and multiplies the
entries of the register as it should.  Its result on a chunk is the chunk of its result on
the register exactly when the chunk does not have both qubits global and set on both sides,
or the parameter is real, or the chunk is zero. -/
theorem extractChunk_applyGate_cp {N L k p q : Nat} {full : Buffer ℝ} (hL : L < N)
    (hN : 2 * N < wordBits) (hk : k < twoPow (2 * (N - L)))
    (hfull : full.size = twoPow (2 * N)) (hp : p < N) (hq : q < N) (hne : p ≠ q) :
    exists part store, extractChunk full ⟨N, L, k⟩ = .ok part ∧
      Store.ofChunk L k part = .ok store ∧
      forall (whole : Machine ℝ) (op : Instruction ℝ) (lambda : Amplitude ℝ),
        whole.width = N -> whole.store.qubits = N -> whole.store.data = full ->
        op.name = "cp" ∨ op.name = "cu1" -> op.qubits = [p, q] ->
        op.params[0]? = some lambda ->
        exists whole' chunk', whole.applyGate op = .ok whole' ∧
          Machine.applyGate { Machine.ofChunk store N with classical := whole.classical } op
            = .ok chunk' ∧
          (forall r c, r < twoPow N -> c < twoPow N ->
            whole'.store.data.entry (cell N r c) = full.entry (cell N r c)
              * (if r.testBit p && r.testBit q then (Amplitude.unit * lambda).exp else 1)
              * (if c.testBit p && c.testBit q then (Amplitude.unit * lambda).exp.conj
                else 1)) ∧
          (extractChunk whole'.store.data ⟨N, L, k⟩ = .ok chunk'.store.data ↔
            ¬Place.SetsBoth ⟨N, L, k⟩ [p, q] ∨ lambda.im = 0 ∨
              forall x, part.entry x = 0) := by
  have hplace : Place.Valid ⟨N, L, k⟩ := ⟨hL, hN, hk⟩
  rcases exists_chunk hplace hfull with ⟨part, hpart, hstore, hchunk⟩
  refine ⟨part, ⟨L, k, part⟩, hpart, hstore, ?_⟩
  intro whole op lambda hwidth hqubits hdata hname hpair hparam
  have hrel := hchunk.isChunkOf hL hN hk whole hwidth hqubits hdata
  have hmax : max N L = N := Nat.max_eq_left (Nat.le_of_lt hL)
  have hgate : Gate.ofName op.name = .ok .cp := by
    rcases hname with hname | hname <;> rw [hname] <;> rfl
  have hnodup : op.qubits.Nodup := by
    rw [hpair]
    simpa using hne
  have hqs : forall i, i ∈ op.qubits ->
      i < ({ Machine.ofChunk ⟨L, k, part⟩ N with classical := whole.classical }
        : Machine ℝ).width := by
    change forall i, i ∈ op.qubits -> i < max N L
    rw [hmax, hpair]
    simp [hp, hq]
  obtain ⟨full', hboth, hwhole, hentries⟩ :=
    Machine.applyGate_cp_whole hrel hgate hpair hqs hparam
  obtain ⟨chunk', hchunk', hiff⟩ :=
    Machine.applyGate_cp_chunk hrel hgate hpair hnodup hqs hparam hboth
  rw [phaseParam_eq hparam] at hentries hiff
  have hsize : full'.size = twoPow (2 * N) := by
    rw [hentries, Buffer.size_tabulate, hdata, hfull]
  refine ⟨whole.withData full', chunk', hwhole, hchunk', ?_, ?_⟩
  · intro r c hr hc
    have hlt : cell N r c < whole.store.data.size := by
      rw [hdata, hfull]
      exact cell_lt hr hc
    change full'.entry (cell N r c) = _
    rw [hentries, Buffer.entry_tabulate_of_lt _ hlt, hdata]
    change _ * _ * (if (cell N r c).testBit (p + max N L) && (cell N r c).testBit (q + max N L)
      then _ else _) = _
    rw [hmax, testBit_cell_row c hr hp, testBit_cell_row c hr hq, testBit_cell_column c p hr,
      testBit_cell_column c q hr]
  · rw [hrel.place_eq, Amplitude.isPhase_exp_unit_mul_iff, hpair] at hiff
    exact (extractChunk_eq_ok_iff hplace hsize).trans hiff

/-- The last chunk of `|110⟩⟨110|` is left as it is by a controlled phase with the
parameter `i log 2`, which divides its only entry by four. -/
theorem extractChunk_applyGate_cp_skipped :
    exists (part : Buffer ℝ) (store : Store ℝ) (whole' chunk' : Machine ℝ),
      extractChunk (Buffer.tabulate 64 fun x => if x = 54 then 1 else 0) ⟨3, 1, 15⟩
        = .ok part ∧
      Store.ofChunk 1 15 part = .ok store ∧
      (Machine.ofStore ⟨3, 0, Buffer.tabulate 64 fun x => if x = 54 then 1 else 0⟩).applyGate
        { Instruction.ofKind .gate with
          name := "cp", qubits := [1, 2], params := #[⟨0, Real.log 2⟩] } = .ok whole' ∧
      (Machine.ofChunk store 3).applyGate
        { Instruction.ofKind .gate with
          name := "cp", qubits := [1, 2], params := #[⟨0, Real.log 2⟩] } = .ok chunk' ∧
      whole'.store.data.entry (cell 3 6 6) = ⟨1 / 4, 0⟩ ∧
      extractChunk whole'.store.data ⟨3, 1, 15⟩ ≠ .ok chunk'.store.data := by
  have hsize : (Buffer.tabulate 64 fun x => if x = 54 then 1 else 0 : Buffer ℝ).size
      = twoPow (2 * 3) := Buffer.size_tabulate _ _
  obtain ⟨part, store, hpart, hstore, hrun⟩ := extractChunk_applyGate_cp
    (by decide : 1 < 3) (by decide) (by decide : 15 < twoPow (2 * (3 - 1))) hsize
    (by decide : 1 < 3) (by decide : 2 < 3) (by decide)
  obtain ⟨whole', chunk', hwhole, hchunk, hentries, hiff⟩ := hrun
    (Machine.ofStore ⟨3, 0, Buffer.tabulate 64 fun x => if x = 54 then 1 else 0⟩)
    { Instruction.ofKind .gate with
      name := "cp", qubits := [1, 2], params := #[⟨0, Real.log 2⟩] }
    ⟨0, Real.log 2⟩ rfl rfl rfl (Or.inl rfl) rfl rfl
  refine ⟨part, store, whole', chunk', hpart, hstore, hwhole, hchunk, ?_, ?_⟩
  · have hfactor : (Amplitude.unit * ⟨0, Real.log 2⟩ : Amplitude ℝ).exp = ⟨1 / 2, 0⟩ := by
      have hre : (Amplitude.unit * ⟨0, Real.log 2⟩ : Amplitude ℝ).re = -Real.log 2 := by simp
      have him : (Amplitude.unit * ⟨0, Real.log 2⟩ : Amplitude ℝ).im = 0 := by simp
      have hexp : Real.exp (-Real.log 2) = 1 / 2 := by
        rw [Real.exp_neg, Real.exp_log (by norm_num), one_div]
      change (⟨Real.exp _ * Real.cos _, Real.exp _ * Real.sin _⟩ : Amplitude ℝ) = _
      rw [hre, him, hexp, Real.cos_zero, Real.sin_zero, mul_one, mul_zero]
    have hentry : (Buffer.tabulate 64 fun x => if x = 54 then 1 else 0 : Buffer ℝ).entry
        (cell 3 6 6) = 1 := Buffer.entry_tabulate_of_lt _ (by decide : 54 < 64)
    have hset : (Nat.testBit 6 1 && Nat.testBit 6 2) = true := by decide
    rw [hentries 6 6 (by decide) (by decide), hfactor, hentry, hset, if_pos rfl, if_pos rfl]
    ext <;> norm_num
  · have hplace : Place.Valid ⟨3, 1, 15⟩ := ⟨by decide, by decide, by decide⟩
    have hzero : part.entry 0 = 1 := by
      rw [((extractChunk_eq_ok_iff hplace hsize).mp hpart).entry_eq 0 (by decide)]
      exact Buffer.entry_tabulate_of_lt _ (by decide : 54 < 64)
    rw [Ne, hiff]
    rintro (hsets | him | hall)
    · refine hsets fun q hq => ?_
      rcases List.mem_pair.mp hq with rfl | rfl <;> exact ⟨by decide, by decide, by decide⟩
    · exact Real.log_ne_zero_of_pos_of_ne_one (by norm_num) (by norm_num) him
    · rw [hall 0] at hzero
      exact zero_ne_one (congrArg Amplitude.re hzero)

end MixedState
