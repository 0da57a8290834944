import MixedState.Proofs.Density.Repeats
import MixedState.Proofs.Machine.Operate

/-!
# What operators lose on qubits that are listed twice

On listed qubits that may repeat, an operator of a machine crashes where a size overruns,
and otherwise it is refused or takes a stated amount off the trace.
-/

namespace MixedState

open MixedState.Basis

/-!
## Losses
-/

/-- What the rows and then the columns of a unitary take off the trace. -/
noncomputable def unitaryLoss (n : Nat) (qs : List Nat) (u ρ : Entries) : Amplitude ℝ :=
  ∑ r ∈ Finset.range (twoPow n),
    (ρ r r - columnPass n qs (fun i j => (u i j).conj) (rowPass n qs u ρ) r r)

noncomputable def Action.loss (n : Nat) (qs : List Nat) (ρ : Entries) : Action -> Amplitude ℝ
  | .matrix u => unitaryLoss n qs u.entry ρ
  | _ => 0

noncomputable def Instruction.loss (n : Nat) (op : Instruction ℝ) (ρ : Entries) : Amplitude ℝ :=
  match op.kind with
  | .gate =>
      match Gate.ofName? op.name with
      | some gate => (gate.action op).loss n op.qubits ρ
      | none => 0
  | .matrix =>
      match op.matrices with
      | u :: _ => unitaryLoss n op.qubits u.entry ρ
      | [] => 0
  | .kraus => leak n op.qubits (op.matrices.map Mat.entry) ρ
  | _ => 0

/-!
## Sizes that overrun
-/

def Mat.Overruns (u : Mat ℝ) (k : Nat) : Prop :=
  if u.hasShape (twoPow k) (twoPow k) then 59 ≤ k
  else if u.rows = 1 then wordBits ≤ k
  else wordBits ≤ 2 * k

/-- On 15 qubits a superoperator has `2 ^ 60` entries, which do not fit in memory. -/
def krausOverruns (k : Nat) (ks : List (Mat ℝ)) : Prop :=
  ks ≠ [] ∧
    if ks.all fun u => u.hasShape (twoPow k) (twoPow k) then 15 ≤ k else wordBits ≤ 2 * k

def Instruction.Overruns (n : Nat) (op : Instruction ℝ) : Prop :=
  let k := op.qubits.length
  match op.kind with
  | .reset => 15 ≤ k
  | .matrix =>
      match op.matrices with
      | u :: _ => u.Overruns k
      | [] => False
  | .kraus => krausOverruns k op.matrices
  | .saveDensmat => op.texts ≠ [] ∧ n < k
  | _ => False

/-!
## Instructions that ought to keep the trace
-/

def Mat.AreComplete (ks : List (Mat ℝ)) : Prop :=
  exists d, (forall k, k ∈ ks -> k.cols = d) ∧
    forall a b, a < d -> b < d ->
      (ks.map fun k => gram k.rows k.entry a b).sum = if a = b then 1 else 0

def Instruction.IsLawful (op : Instruction ℝ) : Prop :=
  match op.kind with
  | .gate => forall a, a ∈ op.params -> a.im = 0
  | .matrix => forall u rest, op.matrices = u :: rest -> u.IsUnitary
  | .kraus => Mat.AreComplete op.matrices
  | .reset | .saveDensmat => True
  | _ => False

theorem Mat.AreComplete.isComplete {ks : List (Mat ℝ)} {d : Nat} (h : AreComplete ks)
    (hne : ks ≠ []) (hshapes : forall k, k ∈ ks -> k.rows = d ∧ k.cols = d) :
    IsComplete d (ks.map Mat.entry) := by
  rcases h with ⟨dim, hcols, hsum⟩
  have hdim : d = dim := by
    rcases List.exists_mem_of_ne_nil ks hne with ⟨k, hk⟩
    rw [← hcols k hk, (hshapes k hk).2]
  intro a b ha hb
  rw [← hsum a b (hdim ▸ ha) (hdim ▸ hb), List.map_map]
  congr 1
  apply List.map_congr_left
  intro k hk
  rw [(hshapes k hk).1]
  rfl

theorem Mat.IsUnitary.cols_le_one {u : Mat ℝ} (hu : u.IsUnitary) (hrows : u.rows = 1) :
    u.cols ≤ 1 := by
  by_contra hmany
  have hgram : forall i j, i < u.cols -> j < u.cols ->
      (u.entry 0 i).conj * u.entry 0 j = if i = j then 1 else 0 := by
    intro i j hi hj
    have h := hu i j hi hj
    unfold gram at h
    rw [hrows, Finset.sum_range_one] at h
    exact h
  have hfirst := hgram 0 0 (by omega) (by omega)
  have hsecond := hgram 1 1 (by omega) (by omega)
  have hmixed := hgram 0 1 (by omega) (by omega)
  rw [if_pos rfl] at hfirst hsecond
  rw [if_neg Nat.zero_ne_one] at hmixed
  have hone : (1 : Amplitude ℝ) = 0 := by
    calc (1 : Amplitude ℝ)
        = ((u.entry 0 0).conj * u.entry 0 0) * ((u.entry 0 1).conj * u.entry 0 1) := by
          rw [hfirst, hsecond, mul_one]
      _ = ((u.entry 0 0).conj * u.entry 0 1) * ((u.entry 0 1).conj * u.entry 0 0) := by ring
      _ = 0 := by rw [hmixed, zero_mul]
  exact absurd (congrArg Amplitude.re hone) (by simp)

namespace Machine

/-!
## Machines and what is left of them
-/

structure IsFull (n : Nat) (m : Machine ℝ) : Prop extends IsRegister n m where
  full : m.store.data.size = twoPow (2 * n)
  small : 2 * n < wordBits

structure Lists (n : Nat) (m : Machine ℝ) (qs : List Nat) : Prop extends IsFull n m where
  inside : forall q, q ∈ qs -> q < n

structure Loses (n : Nat) (m : Machine ℝ) (loss : Amplitude ℝ)
    (result : Outcome (Machine ℝ)) : Prop where
  answers : NoCrash result
  full : forall m', result = .ok m' -> m'.IsFull n
  trace : forall m', result = .ok m' -> m'.store.data.trace n = m.store.data.trace n - loss

/-- A computation that crashes where sizes overrun, and takes `loss` off the trace if it is
not refused otherwise. -/
structure Ends (n : Nat) (m : Machine ℝ) (overruns : Prop) (loss : Amplitude ℝ)
    (result : Outcome (Machine ℝ)) : Prop where
  crashes : overruns -> result = crash
  loses : ¬overruns -> Loses n m loss result

variable {n : Nat} {m : Machine ℝ} {qs : List Nat} {loss : Amplitude ℝ} {overruns : Prop}
  {result : Outcome (Machine ℝ)}

theorem loses_refuse (n : Nat) (m : Machine ℝ) (loss : Amplitude ℝ) (cause : Refusal) :
    Loses n m loss (refuse cause) where
  answers := noCrash_refuse cause
  full := fun _ h => absurd h refuse_ne_ok
  trace := fun _ h => absurd h refuse_ne_ok

theorem Loses.ends (h : Loses n m loss result) (hroom : ¬overruns) :
    Ends n m overruns loss result where
  crashes := fun hoverruns => absurd hoverruns hroom
  loses := fun _ => h

theorem Ends.congr {overruns' : Prop} (h : Ends n m overruns loss result)
    (hsame : overruns ↔ overruns') : Ends n m overruns' loss result where
  crashes := fun hoverruns => h.crashes (hsame.mpr hoverruns)
  loses := fun hroom => h.loses fun hoverruns => hroom (hsame.mp hoverruns)

theorem ends_crash (n : Nat) (m : Machine ℝ) (loss : Amplitude ℝ) (h : overruns) :
    Ends n m overruns loss crash where
  crashes := fun _ => rfl
  loses := fun hroom => absurd h hroom

theorem onData_of_crash {kernel : Buffer ℝ -> Outcome (Buffer ℝ)}
    (h : kernel m.store.data = crash) : m.onData kernel = crash := by
  unfold onData update Store.transform
  dsimp only
  rw [h]
  rfl

theorem ends_wrongSize (what : String) (got : Nat) {k : Nat} :
    Ends n m (wordBits ≤ 2 * k) loss (checkedMul (twoPow k) (twoPow k) >>= fun count =>
      refuse (.elementCount what count got)) := by
  by_cases hword : wordBits ≤ 2 * k
  · have hlarge : ¬twoPow k * twoPow k < wordSize := by
      rw [← twoPow_two_mul, wordSize_eq]
      exact Nat.not_lt_of_le (twoPow_le_twoPow hword)
    unfold checkedMul
    rw [if_neg hlarge]
    exact ends_crash n m loss hword
  · have hsmall : twoPow k * twoPow k < wordSize := by
      rw [← twoPow_two_mul, wordSize_eq]
      exact twoPow_lt_twoPow (Nat.lt_of_not_le hword)
    rw [checkedMul_of_lt hsmall]
    exact (loses_refuse n m loss _).ends hword

namespace Lists

variable {kernel : Buffer ℝ -> Outcome (Buffer ℝ)}

theorem store_lt (h : m.Lists n qs) : m.store.qubits < wordBits := by
  have hsmall := h.small
  have hqubits := h.qubits
  omega

theorem lt_wordBits (h : m.Lists n qs) : forall q, q ∈ qs -> q < wordBits :=
  lt_wordBits_of_lt h.small h.inside

theorem reaches (h : m.Lists n qs) : m.Reaches qs :=
  Or.inl h.whole

theorem loses_onData {b : Buffer ℝ} (h : m.Lists n qs) (hkernel : kernel m.store.data = .ok b)
    (hsize : b.size = twoPow (2 * n)) (htrace : b.trace n = m.store.data.trace n - loss) :
    m.Loses n loss (m.onData kernel) := by
  rw [onData_of_eq_ok hkernel]
  constructor
  · exact noCrash_ok _
  · intro m' hm'
    cases hm'
    exact ⟨⟨h.width, h.qubits, Or.inl hsize⟩, hsize, h.small⟩
  · intro m' hm'
    cases hm'
    exact htrace

theorem loses_of_keepsTrace (h : m.Lists n qs) (hkernel : Kernel.KeepsTrace n kernel) :
    m.Loses n 0 (m.onData kernel) := by
  rcases hkernel m.store.data h.full with ⟨b, hb, hsize, htrace⟩
  exact h.loses_onData hb hsize (by rw [htrace, sub_zero])

theorem loses_of_gives {f : Entries -> Entries} (h : m.Lists n qs)
    (hkernel : Kernel.Gives n f kernel)
    (hloss : ∑ r ∈ Finset.range (twoPow n), f (m.store.data.toEntries n) r r =
      m.store.data.trace n - loss) :
    m.Loses n loss (m.onData kernel) := by
  rcases hkernel m.store.data h.full with ⟨b, hb, hsize, hentries⟩
  apply h.loses_onData hb hsize
  rw [← hloss]
  apply Finset.sum_congr rfl
  intro r hr
  have hr := Finset.mem_range.mp hr
  exact hentries r r hr hr

/-!
## Unitaries
-/

theorem loses_applyDiagonal {entries : Buffer ℝ} (h : m.Lists n qs)
    (hlen : 2 * qs.length ≤ wordBits) (hphases : forall a, a ∈ entries -> a.IsPhase) :
    m.Loses n 0 (m.applyDiagonal qs entries) := by
  have hword : qs.length < wordBits := by
    unfold wordBits at hlen ⊢
    omega
  by_cases hsize : entries.size = twoPow qs.length
  · rw [applyDiagonal_of_reaches h.reaches h.store_lt h.lt_wordBits hword hsize, h.qubits]
    exact h.loses_of_keepsTrace
      (Kernel.keepsTrace_diagonalUnitary h.small hlen h.inside hsize hphases)
  · unfold applyDiagonal
    rw [checkedShift_of_lt hword, ok_bind, if_pos hsize]
    exact loses_refuse n m 0 _

theorem gives_passes {u : Mat ℝ} (h : m.Lists n qs) (hlen : qs.length < 59)
    (hrows : u.rows = twoPow qs.length) (hcols : u.cols = twoPow qs.length) :
    Kernel.Gives n (fun ρ => columnPass n qs (fun i j => (u.entry i j).conj)
      (rowPass n qs u.entry ρ)) (Kernel.unitary n qs u.columns) := by
  have hread : merge qs (Kernel.ofColumns (twoPow qs.length) u.columns) = merge qs u.entry :=
    merge_congr fun i j hi hj => ofColumns_columns hrows hcols hi hj
  have hconj : merge qs (Kernel.ofColumns (twoPow qs.length) u.columns.conj) =
      merge qs fun i j => (u.entry i j).conj := by
    apply merge_congr
    intro i j hi hj
    rw [← ofColumns_columns hrows hcols hi hj]
    exact Buffer.entry_conj _ _
  have hsize : twoPow qs.length * twoPow qs.length ≤ u.columns.size := by
    rw [Mat.size_columns, hrows, hcols]
  have hgives := Kernel.gives_unitary h.inside (Nat.le_of_lt h.small) hlen hsize
  unfold rowPass columnPass at hgives ⊢
  simp only [hread, hconj] at hgives
  exact hgives

theorem ends_unitary {u : Mat ℝ} (h : m.Lists n qs) (hrows : u.rows = twoPow qs.length)
    (hcols : u.cols = twoPow qs.length) :
    m.Ends n (59 ≤ qs.length) (unitaryLoss n qs u.entry (m.store.data.toEntries n))
      (m.onData (Kernel.unitary n qs u.columns)) := by
  by_cases hlimit : 59 ≤ qs.length
  · have hcrash : m.onData (Kernel.unitary n qs u.columns) = crash := by
      apply onData_of_crash
      unfold Kernel.unitary
      rw [Kernel.dense_of_le hlimit]
      rfl
    rw [hcrash]
    exact ends_crash n m _ hlimit
  · have hgives := h.gives_passes (Nat.lt_of_not_le hlimit) hrows hcols
    refine Loses.ends (h.loses_of_gives hgives ?_) hlimit
    unfold unitaryLoss
    rw [Finset.sum_sub_distrib]
    exact (sub_sub_cancel _ _).symm

theorem loses_row {u : Mat ℝ} (hne : qs ≠ []) (hword : qs.length < wordBits) (hu : u.IsUnitary)
    (hrow : u.rows = 1) : m.Loses n loss (m.applyMatrix qs u) := by
  have hlen : 1 < twoPow qs.length :=
    twoPow_lt_twoPow (List.length_pos_iff.mpr hne)
  have hsize : u.entries.size ≠ twoPow qs.length := by
    have hcols := hu.cols_le_one hrow
    rw [u.size_entries, hrow, Nat.one_mul]
    omega
  unfold applyMatrix applyDiagonal
  rw [checkedShift_of_lt hword, ok_bind, if_pos hrow, ok_bind, if_pos hsize]
  exact loses_refuse n m loss _

theorem ends_applyMatrix {u : Mat ℝ} (h : m.Lists n qs) (hne : qs ≠ []) (hu : u.IsUnitary) :
    m.Ends n (u.Overruns qs.length) (unitaryLoss n qs u.entry (m.store.data.toEntries n))
      (m.applyMatrix qs u) := by
  have hlen : 1 < twoPow qs.length :=
    twoPow_lt_twoPow (List.length_pos_iff.mpr hne)
  unfold Mat.Overruns
  by_cases hword : qs.length < wordBits
  · by_cases hshape : u.hasShape (twoPow qs.length) (twoPow qs.length) = true
    · rcases Mat.hasShape_iff.mp hshape with ⟨hrows, hcols⟩
      have hmany : u.rows ≠ 1 := by omega
      rw [if_pos hshape, applyMatrix_of_reaches hmany h.reaches h.store_lt h.lt_wordBits hword
        hrows hcols, h.qubits]
      exact h.ends_unitary hrows hcols
    · rw [if_neg hshape]
      by_cases hrow : u.rows = 1
      · rw [if_pos hrow]
        exact (loses_row hne hword hu hrow).ends (Nat.not_le_of_lt hword)
      · have hshape' : u.hasShape (twoPow qs.length) (twoPow qs.length) = false :=
          Bool.eq_false_iff.mpr hshape
        unfold applyMatrix
        rw [if_neg hrow, checkedShift_of_lt hword, ok_bind, if_neg hrow, hshape',
          Bool.not_false, if_pos rfl]
        exact ends_wrongSize _ _
  · have hcrash : m.applyMatrix qs u = crash := by
      unfold applyMatrix checkedShift
      rw [if_neg hword]
      rfl
    rw [hcrash]
    apply ends_crash
    unfold wordBits at hword ⊢
    split_ifs <;> omega

/-!
## Channels
-/

theorem loses_dense {columns : Buffer ℝ} {ks : List Entries} (h : m.Lists n qs)
    (hlen : 2 * qs.length < 59)
    (hsize : columns.size = twoPow (2 * qs.length) * twoPow (2 * qs.length))
    (hsuperop : Kernel.IsSuperop (twoPow qs.length) ks
      (Kernel.ofColumns (twoPow qs.length * twoPow qs.length) columns))
    (hcomplete : IsComplete (twoPow qs.length) ks) :
    m.Loses n (leak n qs ks (m.store.data.toEntries n))
      (m.onData (Kernel.dense (bothSides n qs) columns)) :=
  h.loses_of_gives
    (Kernel.gives_channel h.inside (Nat.le_of_lt h.small) hlen (Nat.le_of_eq hsize.symm) hsuperop)
    (trace_channelPass h.inside hcomplete _)

theorem ends_krausMap {ks : List (Mat ℝ)} (h : m.Lists n qs) (hne : ks ≠ [])
    (hshapes : forall u, u ∈ ks -> u.rows = twoPow qs.length ∧ u.cols = twoPow qs.length)
    (hcomplete : IsComplete (twoPow qs.length) (ks.map Mat.entry)) :
    m.Ends n (15 ≤ qs.length) (leak n qs (ks.map Mat.entry) (m.store.data.toEntries n))
      (krausMap ks >>= fun map => m.applySuperop qs map) := by
  by_cases hlimit : 15 ≤ qs.length
  · rw [krausMap_of_le hlimit hne hshapes]
    exact ends_crash n m _ hlimit
  · have hfew : 2 * qs.length < 59 := by omega
    rcases exists_krausMap (Nat.lt_of_not_le hlimit) hne hshapes with ⟨map, hmap⟩
    rcases isSuperop_krausMap hne hshapes hmap with ⟨hrows, hcols, hsuperop⟩
    rw [← twoPow_two_mul] at hrows hcols
    have hsize : map.columns.size = twoPow (2 * qs.length) * twoPow (2 * qs.length) := by
      rw [Mat.size_columns, hrows, hcols]
    rw [hmap, ok_bind, applySuperop_of_reaches h.reaches h.store_lt h.lt_wordBits
      (Nat.lt_trans hfew (by decide)) hrows hcols, h.qubits]
    exact (h.loses_dense hfew hsize hsuperop hcomplete).ends hlimit

theorem ends_applyKraus {ks : List (Mat ℝ)} (h : m.Lists n qs) (hks : Mat.AreComplete ks) :
    m.Ends n (krausOverruns qs.length ks)
      (leak n qs (ks.map Mat.entry) (m.store.data.toEntries n)) (m.applyKraus qs ks) := by
  unfold krausOverruns
  by_cases hempty : ks = []
  · rw [hempty]
    exact (loses_refuse n m _ _).ends fun hoverruns => hoverruns.1 rfl
  apply Ends.congr _ (and_iff_right hempty).symm
  have hsome : ¬ks.isEmpty = true := by
    simpa using hempty
  by_cases hword : qs.length < wordBits
  · unfold applyKraus
    rw [if_neg hsome, checkedShift_of_lt hword, ok_bind]
    cases hfind : ks.find? fun u => !u.hasShape (twoPow qs.length) (twoPow qs.length) with
    | some u =>
        have hother : ¬(ks.all fun u =>
            u.hasShape (twoPow qs.length) (twoPow qs.length)) = true := by
          intro hall
          have hshape := List.all_eq_true.mp hall u (List.mem_of_find?_eq_some hfind)
          have hnot := List.find?_some hfind
          rw [hshape] at hnot
          cases hnot
        rw [if_neg hother]
        exact ends_wrongSize "kraus" u.size
    | none =>
        have hall : (ks.all fun u => u.hasShape (twoPow qs.length) (twoPow qs.length)) = true := by
          rw [List.all_eq_true]
          intro u hu
          simpa using List.find?_eq_none.mp hfind u hu
        have hshapes : forall u, u ∈ ks -> u.rows = twoPow qs.length ∧ u.cols = twoPow qs.length :=
          fun u hu => Mat.hasShape_iff.mp (List.all_eq_true.mp hall u hu)
        rw [if_pos hall]
        exact h.ends_krausMap hempty hshapes (hks.isComplete hempty hshapes)
  · have hcrash : m.applyKraus qs ks = crash := by
      unfold applyKraus checkedShift
      rw [if_neg hsome, if_neg hword]
      rfl
    rw [hcrash]
    apply ends_crash
    unfold wordBits at hword ⊢
    split_ifs <;> omega

theorem exists_applyReset (h : m.Lists n qs) (hlen : qs.length < 15) :
    exists columns : Buffer ℝ, m.applyReset qs = m.onData (Kernel.dense (bothSides n qs) columns) ∧
      columns.size = twoPow (2 * qs.length) * twoPow (2 * qs.length) ∧
      Kernel.IsSuperop (twoPow qs.length) (resetOperators (twoPow qs.length))
        (Kernel.ofColumns (twoPow qs.length * twoPow qs.length) columns) := by
  rcases exists_resetMap hlen with ⟨columns, hcolumns⟩
  rcases isSuperop_resetMap hcolumns with ⟨hsize, hsuperop⟩
  refine ⟨columns, ?_, hsize, hsuperop⟩
  rw [applyReset_of_reaches h.reaches h.store_lt h.lt_wordBits, hcolumns, ok_bind, h.qubits]

theorem ends_applyReset (h : m.Lists n qs) :
    m.Ends n (15 ≤ qs.length) 0 (m.applyReset qs) := by
  by_cases hlimit : 15 ≤ qs.length
  · rw [applyReset_of_reaches h.reaches h.store_lt h.lt_wordBits, resetMap_of_le hlimit]
    exact ends_crash n m 0 hlimit
  · rcases h.exists_applyReset (Nat.lt_of_not_le hlimit) with ⟨columns, happly, hsize, hsuperop⟩
    rw [happly, ← leak_resetOperators n qs (twoPow qs.length) (m.store.data.toEntries n)]
    exact (h.loses_dense (by omega) hsize hsuperop (isComplete_resetOperators _)).ends hlimit

/-!
## Gates
-/

theorem loses_applyPauli {op : Instruction ℝ} (h : m.Lists n op.qubits) :
    m.Loses n 0 (m.applyPauli op) := by
  unfold applyPauli
  cases htexts : op.texts with
  | nil =>
      exact loses_refuse n m 0 _
  | cons string rest =>
      dsimp only
      rw [Store.bothBits_eq_ok h.store_lt h.lt_wordBits, ok_bind, h.qubits]
      change m.Loses n 0 (m.onData (Kernel.pauli (bothSides n op.qubits) (string ++ string)
        (ySign string)))
      cases hmasks : PauliMasks.ofString (bothSides n op.qubits) (string ++ string) with
      | ok masks =>
          exact h.loses_of_keepsTrace (Kernel.keepsTrace_pauli
            (spells_of_ofString_eq_ok hmasks).of_bothSides h.small h.inside)
      | error fault =>
          have hanswers := PauliMasks.noCrash_ofString
            (bothSides_lt_wordBits h.small h.inside) (string ++ string)
          rcases hanswers.eq_refuse hmasks with ⟨cause, rfl⟩
          have hrefused : m.onData (Kernel.pauli (bothSides n op.qubits) (string ++ string)
              (ySign string)) = refuse cause := by
            unfold onData update Store.transform Kernel.pauli
            dsimp only
            rw [hmasks]
            rfl
          rw [hrefused]
          exact loses_refuse n m 0 cause

theorem length_le_three {op : Instruction ℝ} {gate : Gate} (hcheck : checkGate op gate = .ok ())
    (hgate : gate ≠ .pauli) : op.qubits.length ≤ 3 := by
  have hwidth := (checkGate_eq_ok_iff.mp hcheck).1
  cases gate with
  | pauli =>
      exact absurd rfl hgate
  | ccx =>
      exact Nat.le_of_eq (hwidth 3 rfl)
  | cx | cy | cz | cp | swap | rxx | ryy | rzz | rzx | ecr =>
      have hlen := hwidth 2 rfl
      omega
  | id | x | y | z | h | s | sdg | t | tdg | sx | sxdg | r | rx | ry | rz | u1 | u2 | u3 =>
      have hlen := hwidth 1 rfl
      omega

theorem loses_enact {op : Instruction ℝ} {gate : Gate} (h : m.Lists n op.qubits)
    (hne : op.qubits ≠ []) (hcheck : checkGate op gate = .ok ())
    (hreal : forall a, a ∈ op.params -> a.im = 0) :
    m.Loses n ((gate.action op).loss n op.qubits (m.store.data.toEntries n))
      (m.enact op (gate.action op)) := by
  have hunitary := gate.isUnitary_action hreal
  have hfits := gate.action_fits op (checkGate_eq_ok_iff.mp hcheck).1
  -- All gates but Pauli strings act on three qubits at most, so their matrices can be built.
  have hfew : gate.action op ≠ .pauli -> op.qubits.length ≤ 3 := by
    intro hother
    apply length_le_three hcheck
    rintro rfl
    exact hother rfl
  cases haction : gate.action op with
  | nothing =>
      refine ⟨noCrash_ok m, ?_, ?_⟩
      · intro m' hm'
        cases hm'
        exact h.toIsFull
      · intro m' hm'
        cases hm'
        exact (sub_zero _).symm
  | sided s =>
      rw [haction] at hunitary hfits
      unfold enact
      rw [h.qubits]
      exact h.loses_of_keepsTrace (s.keepsTrace_both h.small h.inside hfits hunitary)
  | diagonal entries =>
      rw [haction] at hunitary hfew
      have hlen := hfew (by simp)
      exact h.loses_applyDiagonal (by unfold wordBits; omega) hunitary
  | matrix u =>
      rw [haction] at hunitary hfew
      have hlen := hfew (by simp)
      apply (h.ends_applyMatrix hne hunitary).loses
      unfold Mat.Overruns wordBits
      split_ifs <;> omega
  | swap =>
      rw [haction] at hfits
      rcases List.length_eq_two.mp hfits with ⟨p, q, hpair⟩
      have hinside := h.inside
      rw [hpair] at hinside
      unfold enact
      rw [h.qubits, hpair]
      exact h.loses_of_keepsTrace
        (Kernel.keepsTrace_swap h.small (hinside p (by simp)) (hinside q (by simp)))
  | pauli =>
      exact h.loses_applyPauli

theorem loses_applyGate {op : Instruction ℝ} (h : m.Lists n op.qubits) (hne : op.qubits ≠ [])
    (hreal : forall a, a ∈ op.params -> a.im = 0) :
    m.Loses n (match Gate.ofName? op.name with
      | some gate => (gate.action op).loss n op.qubits (m.store.data.toEntries n)
      | none => 0) (m.applyGate op) := by
  unfold applyGate Gate.ofName
  cases Gate.ofName? op.name with
  | none =>
      exact loses_refuse n m _ _
  | some gate =>
      dsimp only
      rw [ok_bind]
      cases hcheck : checkGate op gate with
      | error fault =>
          rcases (noCrash_checkGate op gate).eq_refuse hcheck with ⟨cause, rfl⟩
          exact loses_refuse n m _ cause
      | ok done =>
          rw [ok_bind, h.whole, if_neg Bool.false_ne_true,
            applyLocal_eq_enact (checkGate_eq_ok_iff.mp hcheck).1 h.store_lt h.lt_wordBits]
          exact h.loses_enact hne hcheck hreal

end Lists

end Machine

/-!
## Instructions
-/

/-- On qubits that may repeat, the operator of an instruction that ought to keep the trace
crashes where it overruns, and otherwise loses what is stated. -/
theorem Instruction.ends_operate {n : Nat} {m : Machine ℝ} {op : Instruction ℝ}
    (hop : op.kind.isOperator = true) (hlawful : op.IsLawful) (h : m.Lists n op.qubits)
    (hne : op.qubits ≠ []) :
    m.Ends n (op.Overruns n) (op.loss n (m.store.data.toEntries n)) (op.operate m op.qubits) := by
  have hself : forall qs, qs = op.qubits ->
      m.applyGate { op with qubits := qs } = m.applyGate op := by
    rintro qs rfl
    rfl
  unfold IsLawful at hlawful
  unfold Overruns loss operate
  dsimp only
  rw [hself _ rfl]
  cases hkind : op.kind with
  | gate =>
      rw [hkind] at hlawful
      exact (h.loses_applyGate hne hlawful).ends id
  | reset =>
      exact h.ends_applyReset
  | kraus =>
      rw [hkind] at hlawful
      exact h.ends_applyKraus hlawful
  | matrix =>
      rw [hkind] at hlawful
      cases hmatrices : op.matrices with
      | nil =>
          exact (Machine.loses_refuse n m _ _).ends id
      | cons u rest =>
          exact h.ends_applyMatrix hne (hlawful u rest hmatrices)
  | diagonal | superop =>
      rw [hkind] at hlawful
      exact hlawful.elim
  | measure | barrier | bfunc | errorLocation | readoutError | setStatevec | setDensmat
  | saveExpval | saveExpvalVar | saveDensmat | saveProbs | saveProbsKet | saveAmpsSq | saveState
  | jump | mark | prepare | saveStatevec | saveAmps | setStabilizer =>
      rw [hkind] at hop
      cases hop

end MixedState
