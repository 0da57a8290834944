import MixedState.Proofs.Machine.Channels
import MixedState.Proofs.Machine.Density
import MixedState.Proofs.Machine.Factors
import MixedState.Proofs.Machine.Readouts

/-!
# Lists of the whole register

Instructions that load or save the state of the whole register are given a list of qubits,
of which they only see the length.  A saved density matrix has the bits of its indices in
the order of the list, so that a matrix that was loaded with a list comes back with its
rows and columns moved along the list.
-/

namespace MixedState

open MixedState.Basis
open Amplitude (ofReal)

/-!
## Lists of all qubits
-/

section Lists

variable {n : Nat} {qs : List Nat}

theorem perm_range_of_nodup (hlen : qs.length = n) (hqs : forall q, q ∈ qs -> q < n)
    (hnodup : qs.Nodup) : qs.Perm (List.range n) := by
  have hsubset : qs ⊆ List.range n := fun q hq => List.mem_range.mpr (hqs q hq)
  exact (hnodup.subperm hsubset).perm_of_length_le (by rw [List.length_range, hlen])

theorem names_all_iff_nodup (hlen : qs.length = n) (hqs : forall q, q ∈ qs -> q < n) :
    (forall q, q < n -> q ∈ qs) ↔ qs.Nodup := by
  constructor
  · intro hall
    have hsubset : List.range n ⊆ qs := fun q hq => hall q (List.mem_range.mp hq)
    exact ((List.nodup_range.subperm hsubset).perm_of_length_le
      (by rw [List.length_range, hlen])).nodup_iff.mp List.nodup_range
  · intro hnodup q hq
    exact (perm_range_of_nodup hlen hqs hnodup).mem_iff.mpr (List.mem_range.mpr hq)

theorem lt_of_perm_range (hperm : qs.Perm (List.range n)) : forall q, q ∈ qs -> q < n :=
  fun _ hq => List.mem_range.mp (hperm.mem_iff.mp hq)

theorem nodup_of_perm_range (hperm : qs.Perm (List.range n)) : qs.Nodup :=
  hperm.nodup_iff.mpr List.nodup_range

theorem length_of_perm_range (hperm : qs.Perm (List.range n)) : qs.length = n := by
  rw [hperm.length_eq, List.length_range]

theorem overwrite_eq_scatter (hperm : qs.Perm (List.range n)) {x : Nat} (hx : x < twoPow n)
    (b : Nat) : overwrite qs x b = scatter qs b := by
  have hnodup := nodup_of_perm_range hperm
  apply Nat.eq_of_testBit_eq
  intro q
  by_cases hq : q ∈ qs
  · rcases List.mem_iff_getElem?.mp hq with ⟨j, hj⟩
    rw [testBit_overwrite x b hnodup hj, testBit_scatter b hnodup hj]
  · have hout : n ≤ q := by
      by_contra hin
      exact hq (hperm.mem_iff.mpr (List.mem_range.mpr (Nat.lt_of_not_le hin)))
    rw [testBit_overwrite_of_not_mem x b hq, testBit_scatter_of_not_mem b hq,
      (lt_twoPow_iff x n).mp hx q hout]

theorem gather_eq_iff (hperm : qs.Perm (List.range n)) {x a : Nat} (hx : x < twoPow n)
    (ha : a < twoPow n) : gather qs x = a ↔ x = scatter qs a := by
  have hnodup := nodup_of_perm_range hperm
  constructor
  · intro h
    rw [← h, ← overwrite_eq_scatter hperm hx, overwrite_gather x hnodup]
  · intro h
    rw [h, ← overwrite_eq_scatter hperm hx]
    exact gather_overwrite x hnodup (by rw [length_of_perm_range hperm]; exact ha)

theorem reduceTo_of_perm (hperm : qs.Perm (List.range n)) {ρ : Entries} {a b : Nat}
    (ha : a < twoPow n) : reduceTo n qs ρ a b = ρ (scatter qs a) (scatter qs b) := by
  have hterm : forall x, x ∈ Finset.range (twoPow n) ->
      (if gather qs x = a then ρ x (overwrite qs x b) else 0) =
        if x = scatter qs a then ρ x (scatter qs b) else 0 := by
    intro x hx
    have hlt := Finset.mem_range.mp hx
    rw [overwrite_eq_scatter hperm hlt]
    exact if_congr (gather_eq_iff hperm hlt ha) rfl rfl
  unfold reduceTo
  rw [Finset.sum_congr rfl hterm]
  exact sum_range_single (scatter_lt (lt_of_perm_range hperm) a) fun x => ρ x (scatter qs b)

/-- Only the ascending list leaves every index as it is: another one moves the bit of one of
its places. -/
theorem scatter_eq_self_iff (hperm : qs.Perm (List.range n)) :
    (forall a, a < twoPow n -> scatter qs a = a) ↔ qs = List.range n := by
  have hlen := length_of_perm_range hperm
  constructor
  · intro h
    apply List.ext_getElem?
    intro j
    by_cases hj : j < n
    · have hget : qs[j]? = some qs[j] := List.getElem?_eq_getElem (hlen.symm ▸ hj)
      have hbit := testBit_scatter (twoPow j) (nodup_of_perm_range hperm) hget
      rw [h (twoPow j) (twoPow_lt_twoPow hj), testBit_twoPow, testBit_twoPow,
        decide_eq_true rfl, decide_eq_true_iff] at hbit
      rw [hget, List.getElem?_range hj, ← hbit]
    · rw [List.getElem?_eq_none (by omega), List.getElem?_eq_none (by
        rw [List.length_range]
        omega)]
  · intro h a ha
    rw [h] at hperm ⊢
    exact ((gather_eq_iff hperm ha ha).mp (gather_range ha)).symm

end Lists

/-!
## Instructions on the whole register
-/

namespace Instruction

def IsFullRegister (op : Instruction ℝ) : Prop :=
  op.kind = .saveState ∨ op.kind = .setStatevec ∨ op.kind = .setDensmat

def Loads (op : Instruction ℝ) (n : Nat) (σ : Entries) : Prop :=
  (op.kind = .setDensmat ∧ exists u rest, op.matrices = u :: rest ∧ u.rows = twoPow n ∧
      u.cols = twoPow n ∧ σ = u.entry) ∨
    (op.kind = .setStatevec ∧ op.params.size = twoPow n ∧
      σ = fun r c => op.params.entry r * (op.params.entry c).conj)

end Instruction

/-- What a save reports that is given the list of the load: the indices are moved along the
list, and without qubits the real part of the one entry is left. -/
noncomputable def relisted (n : Nat) (qs : List Nat) (σ : Entries) : Entries :=
  fun a b => if n = 0 then ofReal (σ a b).re else σ (scatter qs a) (scatter qs b)

variable {n : Nat} {qs : List Nat}

theorem relisted_of_pos (hpos : 0 < n) (qs : List Nat) (σ : Entries) (a b : Nat) :
    relisted n qs σ a b = σ (scatter qs a) (scatter qs b) :=
  if_neg hpos.ne'

theorem exists_loads_single {kind : Kind} (hkind : kind = .setDensmat ∨ kind = .setStatevec)
    (n : Nat) (qs : List Nat) (x : Nat) :
    exists (load : Instruction ℝ) (σ : Entries), load.kind = kind ∧ load.qubits = qs ∧
      load.Loads n σ ∧ forall r, r < twoPow n -> σ r r = if r = x then 1 else 0 := by
  rcases hkind with rfl | rfl
  · refine ⟨.setDensmat qs (Mat.ofFn (twoPow n) (twoPow n) fun r c =>
      if r = x ∧ c = x then 1 else 0), _, rfl, rfl, Or.inl ⟨rfl, _, _, rfl, rfl, rfl, rfl⟩, ?_⟩
    intro r hr
    rw [Mat.entry_ofFn _ hr hr]
    exact if_congr and_self_iff rfl rfl
  · refine ⟨.setStatevec qs (Buffer.tabulate (twoPow n) fun i => if i = x then 1 else 0), _,
      rfl, rfl, Or.inr ⟨rfl, Buffer.size_tabulate _ _, rfl⟩, ?_⟩
    intro r hr
    change (Buffer.tabulate (twoPow n) _).entry r * ((Buffer.tabulate (twoPow n) _).entry r).conj
      = _
    rw [Buffer.entry_tabulate_of_lt _ hr]
    by_cases hx : r = x
    · rw [if_pos hx, Amplitude.conj_one, mul_one]
    · rw [if_neg hx, zero_mul]

/-- Only under the ascending list does every load come back as it was: under another one,
some index trades its weight with the one that the list moves it to. -/
theorem relisted_eq_self_iff (hpos : 0 < n) (hperm : qs.Perm (List.range n)) {kind : Kind}
    (hkind : kind = .setDensmat ∨ kind = .setStatevec) :
    (forall (load : Instruction ℝ) σ, load.kind = kind -> load.qubits = qs -> load.Loads n σ ->
        forall a b, a < twoPow n -> b < twoPow n -> relisted n qs σ a b = σ a b) ↔
      qs = List.range n := by
  have hlt := scatter_lt (lt_of_perm_range hperm)
  simp only [relisted_of_pos hpos]
  rw [← scatter_eq_self_iff hperm]
  constructor
  · intro h a ha
    rcases exists_loads_single hkind n qs (scatter qs a) with ⟨load, σ, hload, hqs, hloads, hσ⟩
    have hback := h load σ hload hqs hloads a a ha ha
    rw [hσ _ (hlt a), hσ a ha, if_pos rfl] at hback
    by_contra hne
    rw [if_neg (Ne.symm hne)] at hback
    exact absurd (congrArg Amplitude.re hback) (by simp)
  · intro h load σ _ _ _ a b ha hb
    rw [h a ha, h b hb]

namespace Machine

variable {n : Nat} {m m' : Machine ℝ} {op : Instruction ℝ} {qs : List Nat} {σ : Entries}

theorem Holds.withData {b : Buffer ℝ} (hsize : b.size = twoPow (2 * n))
    (hentries : forall r c, r < twoPow n -> c < twoPow n -> b.toEntries n r c = σ r c) :
    m.Holds n σ (m.withData b) :=
  ⟨rfl, hsize, hentries⟩

theorem requireAllQubits_eq_ok_iff (h : m.IsFull n) :
    m.requireAllQubits op = .ok () ↔ op.qubits.length = n := by
  unfold requireAllQubits
  rw [requireWhole_of_whole h.width_eq, ok_bind, h.width]
  by_cases hlen : op.qubits.length = n
  · simp [hlen]
  · simp [hlen, refuse]

theorem IsFull.dim_eq_ok (h : m.IsFull n) : m.store.dim = .ok (twoPow n) := by
  have hsmall := h.small
  unfold Store.dim
  rw [h.qubits, checkedShift_of_lt (by omega)]

theorem update_eq_ok {f : Store ℝ -> Outcome (Store ℝ)} {b : Buffer ℝ}
    (h : f m.store = .ok { m.store with data := b }) : m.update f = .ok (m.withData b) := by
  unfold update
  rw [h]
  rfl

theorem IsFull.setVector_eq_ok (h : m.IsFull n) (hlen : op.qubits.length = n)
    (hsize : op.params.size = twoPow n) :
    m.setVector op = .ok (m.withData op.params.outer) := by
  have hsmall := h.small
  have hsquare : twoPow n * twoPow n < wordSize := by
    rw [← twoPow_add, wordSize_eq]
    exact twoPow_lt_twoPow (show n + n < wordBits by omega)
  have hload : m.store.loadVector op.params = .ok { m.store with data := op.params.outer } := by
    unfold Store.loadVector
    rw [h.dim_eq_ok, ok_bind, checkedMul_of_lt hsquare, ok_bind, if_pos hsize]
    rfl
  unfold setVector
  rw [(requireAllQubits_eq_ok_iff h).mpr hlen, ok_bind, h.width, checkedShift_of_lt (by omega),
    ok_bind, if_neg (not_not.mpr hsize)]
  exact update_eq_ok hload

theorem IsFull.setMatrix_eq_ok (h : m.IsFull n) (hlen : op.qubits.length = n) {u : Mat ℝ}
    {rest : List (Mat ℝ)} (hmatrices : op.matrices = u :: rest) (hrows : u.rows = twoPow n)
    (hcols : u.cols = twoPow n) : m.setMatrix op = .ok (m.withData u.columns) := by
  have hload : m.store.loadMatrix u = .ok { m.store with data := u.columns } := by
    unfold Store.loadMatrix
    rw [h.dim_eq_ok, ok_bind, if_pos (Mat.hasShape_iff.mpr ⟨hrows, hcols⟩)]
    rfl
  unfold setMatrix
  rw [(requireAllQubits_eq_ok_iff h).mpr hlen, ok_bind, hmatrices]
  exact update_eq_ok hload

theorem IsFull.reduced_fst (h : m.IsFull n) (qs : List Nat) (final : Bool) :
    (m.reduced qs final).1 = (m.reduced qs false).1 := by
  by_cases hpart : qs.isEmpty = true ∨ m.isWholeRegister qs = false
  · rw [reduced_of_part hpart]
  · rw [not_or, Bool.not_eq_true, Bool.not_eq_false] at hpart
    have hfull : m.store.IsFull := by
      unfold Store.IsFull
      rw [h.full, h.qubits, twoPow_two_mul]
    rw [reduced_of_whole h.whole hpart.1 hpart.2, reduced_of_whole h.whole hpart.1 hpart.2]
    cases final with
    | false =>
        rfl
    | true =>
        exact Store.take_fst_of_full hfull

theorem Holds.exists_relisted (h : m.IsFull n) (hholds : m.Holds n σ m')
    (hperm : qs.Perm (List.range n)) (final : Bool) :
    exists u : Mat ℝ, (m'.reduced qs final).1 = .ok u ∧ u.Holds (twoPow n) (relisted n qs σ) := by
  have hfull : m'.IsFull n := h.of_holds hholds
  have hwhole : m'.width = m'.store.qubits := hfull.width_eq
  have hsmall := hfull.small
  rw [← hfull.width] at hsmall
  have hdata : m'.store.data.size = twoPow (2 * m'.width) := by rw [hfull.full, hfull.width]
  rw [hfull.reduced_fst qs final]
  -- The empty list is read as the trace, a single entry, and not by the partial trace.
  by_cases hn : n = 0
  · have hnil : qs = [] := List.length_eq_zero_iff.mp (by rw [length_of_perm_range hperm, hn])
    have htrace : m'.store.trace = .ok (σ 0 0).re := by
      have hentry := hholds.entries 0 0 (twoPow_pos n) (twoPow_pos n)
      rw [hn] at hentry
      rw [trace_eq_ok hwhole hsmall hdata, hfull.width, hn, ← hentry]
      exact congrArg Except.ok (Finset.sum_range_one _)
    refine ⟨Mat.ofFn 1 1 fun _ _ => ofReal (σ 0 0).re, ?_, ?_⟩
    · unfold reduced
      rw [requireWhole_of_whole hwhole, hnil]
      dsimp only
      rw [if_pos List.isEmpty_nil, htrace]
      rfl
    · rw [hn]
      apply Mat.holds_ofFn
      intro a b ha hb
      rw [Nat.lt_one_iff.mp ha, Nat.lt_one_iff.mp hb]
      exact (if_pos rfl).symm
  · have hne : qs ≠ [] := by
      intro hnil
      rw [hnil] at hperm
      exact hn (length_of_perm_range hperm).symm
    rcases exists_reduced hwhole hsmall hdata hne (nodup_of_perm_range hperm)
      (by rw [hfull.width]; exact lt_of_perm_range hperm) with ⟨u, hu, hentries⟩
    rw [length_of_perm_range hperm, hfull.width] at hentries
    refine ⟨u, hu, hentries.rows, hentries.cols, ?_⟩
    intro a b ha hb
    have hlt := scatter_lt (lt_of_perm_range hperm)
    rw [hentries.entry a b ha hb, reduceTo_of_perm hperm ha, hholds.entries _ _ (hlt a) (hlt b),
      relisted_of_pos (Nat.pos_of_ne_zero hn)]

end Machine

/-!
## Steps
-/

namespace Experiment

variable {n : Nat} {e : Experiment ℝ} {op load save : Instruction ℝ} {qs : List Nat}
  {σ : Entries} {final : Bool}

theorem perform_saveState (hkind : op.kind = .saveState) :
    e.perform op final = e.saveState op final := by
  unfold perform
  rw [hkind]

theorem perform_setStatevec (hkind : op.kind = .setStatevec) :
    e.perform op final = e.evolve (e.machine.setVector op) := by
  unfold perform
  rw [hkind]

theorem perform_setDensmat (hkind : op.kind = .setDensmat) :
    e.perform op final = e.evolve (e.machine.setMatrix op) := by
  unfold perform
  rw [hkind]

theorem perform_saveDensmat (hkind : op.kind = .saveDensmat) :
    e.perform op final = e.saveDensmat op final := by
  unfold perform
  rw [hkind]

theorem exists_of_evolve {result : Outcome (Machine ℝ)} (h : (e.evolve result).1 = .ok ()) :
    exists m, result = .ok m := by
  cases result with
  | error fault =>
      cases h
  | ok m =>
      exact ⟨m, rfl⟩

theorem apply_congr_length (h : e.machine.IsFull n) (hkind : op.IsFullRegister)
    (hinside : forall q, q ∈ op.qubits -> q < n) (hqs : forall q, q ∈ qs -> q < n)
    (hlen : qs.length = op.qubits.length) :
    e.apply { op with qubits := qs } final = e.apply op final := by
  have hrequire : e.machine.requireAllQubits { op with qubits := qs } =
      e.machine.requireAllQubits op := by
    unfold Machine.requireAllQubits
    rw [hlen]
  have hperform : e.perform { op with qubits := qs } final = e.perform op final := by
    have hsame : ({ op with qubits := qs } : Instruction ℝ).kind = op.kind := rfl
    rcases hkind with hkind | hkind | hkind
    · rw [perform_saveState (hsame.trans hkind), perform_saveState hkind]
      unfold saveState checkState
      rw [hlen]
      rfl
    · rw [perform_setStatevec (hsame.trans hkind), perform_setStatevec hkind]
      unfold Machine.setVector
      rw [hrequire]
    · rw [perform_setDensmat (hsame.trans hkind), perform_setDensmat hkind]
      unfold Machine.setMatrix
      rw [hrequire]
  by_cases hallows : e.machine.classical.allows op = true
  · have hallows' : e.machine.classical.allows { op with qubits := qs } = true := hallows
    rw [apply_of_allows hallows' (by rw [h.width]; exact hqs),
      apply_of_allows hallows (by rw [h.width]; exact hinside), hperform]
  · have hskipped : e.machine.classical.allows op = false := Bool.eq_false_iff.mpr hallows
    have hskipped' : e.machine.classical.allows { op with qubits := qs } = false := hskipped
    unfold apply
    rw [hskipped, hskipped']
    rfl

theorem length_of_apply (h : e.machine.IsFull n) (hkind : op.IsFullRegister)
    (hallows : e.machine.classical.allows op = true) (hinside : forall q, q ∈ op.qubits -> q < n)
    (hstep : (e.apply op final).1 = .ok ()) : op.qubits.length = n := by
  rw [apply_of_allows hallows (by rw [h.width]; exact hinside)] at hstep
  rcases hkind with hkind | hkind | hkind
  · rw [perform_saveState hkind] at hstep
    unfold saveState at hstep
    cases hcheck : e.checkState op with
    | error fault =>
        rw [hcheck] at hstep
        cases hstep
    | ok key =>
        rw [← h.width]
        exact (checkState_eq_ok_iff.mp hcheck).2.1
  · rw [perform_setStatevec hkind] at hstep
    rcases exists_of_evolve hstep with ⟨m, hm⟩
    rcases bind_eq_ok_iff.mp hm with ⟨_, hrequire, _⟩
    exact (Machine.requireAllQubits_eq_ok_iff h).mp hrequire
  · rw [perform_setDensmat hkind] at hstep
    rcases exists_of_evolve hstep with ⟨m, hm⟩
    rcases bind_eq_ok_iff.mp hm with ⟨_, hrequire, _⟩
    exact (Machine.requireAllQubits_eq_ok_iff h).mp hrequire

theorem exists_apply_load (h : e.machine.IsFull n) (hload : load.Loads n σ)
    (hallows : e.machine.classical.allows load = true)
    (hinside : forall q, q ∈ load.qubits -> q < n) (hlen : load.qubits.length = n)
    (final : Bool) :
    exists m', e.apply load final = (.ok (), { e with machine := m' }) ∧
      e.machine.Holds n σ m' := by
  rw [apply_of_allows hallows (by rw [h.width]; exact hinside)]
  rcases hload with ⟨hkind, u, rest, hmatrices, hrows, hcols, rfl⟩ | ⟨hkind, hsize, rfl⟩
  · rw [perform_setDensmat hkind, h.setMatrix_eq_ok hlen hmatrices hrows hcols]
    exact ⟨_, rfl, Machine.Holds.withData
      (by rw [Mat.size_columns, hrows, hcols, twoPow_two_mul])
      fun r c hr hc => Mat.toEntries_columns hrows hcols hr hc⟩
  · rw [perform_setStatevec hkind, h.setVector_eq_ok hlen hsize]
    exact ⟨_, rfl, Machine.Holds.withData (Buffer.size_outer hsize)
      fun r c hr hc => Buffer.toEntries_outer hsize hr hc⟩

def Reports (e : Experiment ℝ) (save : Instruction ℝ) (final : Bool) (u : Mat ℝ) : Prop :=
  exists key left, save.key? = some key ∧
    e.apply save final = e.saveMatrix .saveDensmat key save.saveMode (.ok u, left)

theorem exists_reports_relisted (h : e.machine.IsFull n) {m' : Machine ℝ}
    (hholds : e.machine.Holds n σ m') (hperm : save.qubits.Perm (List.range n))
    (hkind : save.kind = .saveDensmat) (hkey : exists key, save.key? = some key)
    (hallows : e.machine.classical.allows save = true) (final : Bool) :
    exists u, ({ e with machine := m' } : Experiment ℝ).Reports save final u ∧
      u.Holds (twoPow n) (relisted n save.qubits σ) := by
  have hfull : m'.IsFull n := h.of_holds hholds
  have hclassical : m'.classical = e.machine.classical := by
    rw [hholds.rest]
    rfl
  rcases hholds.exists_relisted h hperm final with ⟨u, hu, hentries⟩
  rcases hkey with ⟨key, hkey⟩
  refine ⟨u, ⟨key, (m'.reduced save.qubits final).2, hkey, ?_⟩, hentries⟩
  rw [apply_of_allows (hclassical ▸ hallows) (hfull.width ▸ lt_of_perm_range hperm),
    perform_saveDensmat hkind, ← hu]
  unfold saveDensmat
  rw [saveKey_eq_ok_iff.mpr hkey, hkind]

/-- What loads and saves of the whole register do with their list: they only ask for its
length, so that a list which repeats a qubit and leaves another out passes, and a load under
a list in which every qubit is comes back with its indices moved along that list. -/
theorem full_register_list (h : e.machine.IsFull n) :
    (forall (op : Instruction ℝ) final, op.IsFullRegister ->
        e.machine.classical.allows op = true -> (forall q, q ∈ op.qubits -> q < n) ->
        ((e.apply op final).1 = .ok () ->
          op.qubits.length = n ∧ ((forall q, q < n -> q ∈ op.qubits) ↔ op.qubits.Nodup)) ∧
        forall qs : List Nat, (forall q, q ∈ qs -> q < n) -> qs.length = op.qubits.length ->
          e.apply { op with qubits := qs } final = e.apply op final) ∧
      forall qs : List Nat, qs.Perm (List.range n) ->
        (forall (load : Instruction ℝ) σ final, load.Loads n σ -> load.qubits = qs ->
          e.machine.classical.allows load = true ->
          exists m', e.apply load final = (.ok (), { e with machine := m' }) ∧
            e.machine.Holds n σ m' ∧
            forall (save : Instruction ℝ) final, save.kind = .saveDensmat -> save.qubits = qs ->
              (exists key, save.key? = some key) -> e.machine.classical.allows save = true ->
              exists u, ({ e with machine := m' } : Experiment ℝ).Reports save final u ∧
                u.Holds (twoPow n) (relisted n qs σ)) ∧
        forall kind, kind = .setDensmat ∨ kind = .setStatevec -> 0 < n ->
          ((forall (load : Instruction ℝ) σ, load.kind = kind -> load.qubits = qs ->
              load.Loads n σ ->
              forall a b, a < twoPow n -> b < twoPow n -> relisted n qs σ a b = σ a b) ↔
            qs = List.range n) := by
  constructor
  · intro op final hkind hallows hinside
    constructor
    · intro hstep
      have hlen := length_of_apply h hkind hallows hinside hstep
      exact ⟨hlen, names_all_iff_nodup hlen hinside⟩
    · intro qs hqs hlen
      exact apply_congr_length h hkind hinside hqs hlen
  · intro qs hperm
    constructor
    · rintro load σ final hloads rfl hallows
      rcases exists_apply_load h hloads hallows (lt_of_perm_range hperm)
        (length_of_perm_range hperm) final with ⟨m', happly, hholds⟩
      refine ⟨m', happly, hholds, ?_⟩
      intro save final hkind hqs hkey hallows
      rw [← hqs] at hperm ⊢
      exact exists_reports_relisted h hholds hperm hkind hkey hallows final
    · intro kind hkind hpos
      exact relisted_eq_self_iff hpos hperm hkind

noncomputable def bothClear : Experiment ℝ :=
  { machine := .ofStore ⟨2, 0, Buffer.tabulate 16 fun x => if x = 0 then 1 else 0⟩
    archive := .empty
    source := .ofSeed 0 }

noncomputable def firstSetReversed : Instruction ℝ :=
  .setDensmat [1, 0] (Mat.ofFn 4 4 fun r c => if r = 1 ∧ c = 1 then 1 else 0)

/-- The weight comes back on the other qubit; and a load that names the first qubit twice
ends well. -/
theorem full_register_list_reversed :
    (exists m' u, bothClear.apply firstSetReversed false =
          (.ok (), { bothClear with machine := m' }) ∧
        ({ bothClear with machine := m' } : Experiment ℝ).Reports
          (.save .saveDensmat [1, 0] "a" .single) false u ∧
        u.entry 1 1 = 0 ∧ u.entry 2 2 = 1) ∧
      (bothClear.apply { firstSetReversed with qubits := [0, 0] } false).1 = .ok () := by
  have hfull : bothClear.machine.IsFull 2 :=
    ⟨⟨rfl, rfl, Or.inl (Buffer.size_tabulate _ _)⟩, Buffer.size_tabulate _ _, by decide⟩
  have hperm : [1, 0].Perm (List.range 2) := by decide
  have hloads : firstSetReversed.Loads 2 _ := Or.inl ⟨rfl, _, _, rfl, rfl, rfl, rfl⟩
  rcases full_register_list hfull with ⟨hlength, hreads⟩
  rcases (hreads [1, 0] hperm).1 firstSetReversed _ false hloads rfl rfl with
    ⟨m', happly, _, hsave⟩
  rcases hsave (.save .saveDensmat [1, 0] "a" .single) false rfl rfl ⟨"a", rfl⟩ rfl with
    ⟨u, hreports, hentries⟩
  refine ⟨⟨m', u, happly, hreports, ?_, ?_⟩, ?_⟩
  · rw [hentries.entry 1 1 (by decide) (by decide), relisted_of_pos (by decide),
      show scatter [1, 0] 1 = 2 by decide,
      Mat.entry_ofFn _ (show 2 < 4 by decide) (show 2 < 4 by decide)]
    rfl
  · rw [hentries.entry 2 2 (by decide) (by decide), relisted_of_pos (by decide),
      show scatter [1, 0] 2 = 1 by decide,
      Mat.entry_ofFn _ (show 1 < 4 by decide) (show 1 < 4 by decide)]
    rfl
  · rw [(hlength firstSetReversed false (Or.inr (Or.inr rfl)) rfl (by decide)).2 [0, 0]
      (by decide) rfl, happly]

end Experiment

end MixedState
