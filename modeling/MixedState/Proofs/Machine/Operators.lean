import MixedState.Proofs.Machine.Action
import MixedState.Proofs.Pauli

/-!
# When operators succeed

An operator of a machine first checks sizes and places, and is then a kernel on the
buffer.
-/

namespace MixedState

theorem Mat.hasShape_iff {R : Type} {u : Mat R} {rows cols : Nat} :
    u.hasShape rows cols = true ↔ u.rows = rows ∧ u.cols = cols := by
  simp [Mat.hasShape]

theorem Mat.size_columns {R : Type} [Scalar R] (u : Mat R) : u.columns.size = u.cols * u.rows :=
  Buffer.size_tabulate _ _

namespace Machine

variable {m m' : Machine ℝ} {qs : List Nat}

/-- The machine holds the whole register, or all of the qubits are in its chunk. -/
def Reaches (m : Machine ℝ) (qs : List Nat) : Prop :=
  m.isSplit = false ∨ forall q, q ∈ qs -> q < m.store.qubits

theorem all_isLocal_iff : qs.all m.place.isLocal = true ↔
    forall q, q ∈ qs -> q < m.store.qubits := by
  rw [List.all_eq_true]
  constructor
  · intro h q hq
    exact of_decide_eq_true (h q hq)
  · intro h q hq
    exact decide_eq_true (h q hq)

theorem requireLocal_eq_ok_iff {name : String} :
    m.requireLocal name qs = .ok () ↔ m.Reaches qs := by
  unfold requireLocal Reaches
  cases hsplit : m.isSplit with
  | false =>
      simp
  | true =>
      rw [if_pos rfl]
      cases hfind : qs.find? fun q => !m.place.isLocal q with
      | some qubit =>
          have hmem := List.mem_of_find?_eq_some hfind
          have hglobal := List.find?_some hfind
          constructor
          · intro h
            exact absurd h refuse_ne_ok
          · rintro (h | h)
            · cases h
            · have hlocal : m.place.isLocal qubit = true := decide_eq_true (h qubit hmem)
              rw [hlocal] at hglobal
              cases hglobal
      | none =>
          refine ⟨fun _ => Or.inr ?_, fun _ => rfl⟩
          intro q hq
          have hlocal := List.find?_eq_none.mp hfind q hq
          exact of_decide_eq_true (by simpa using hlocal : m.place.isLocal q = true)

theorem requireLocal_eq_refuse {q : Nat} (hsplit : m.isSplit = true)
    (hfind : qs.find? (fun q => m.store.qubits ≤ q) = some q) (name : String) :
    m.requireLocal name qs = refuse (.globalQubit name q) := by
  have hfun : (fun q => !m.place.isLocal q) = fun q => decide (m.store.qubits ≤ q) := by
    funext q
    change (!decide (q < m.store.qubits)) = _
    rw [← decide_not, decide_eq_decide]
    exact Nat.not_lt
  unfold requireLocal
  rw [if_pos hsplit, hfun, hfind]

theorem size_of_applyDiagonal_eq_ok {entries : Buffer ℝ}
    (h : m.applyDiagonal qs entries = .ok m') :
    qs.length < wordBits ∧ entries.size = twoPow qs.length := by
  unfold applyDiagonal at h
  rcases bind_eq_ok_iff.mp h with ⟨dim, hdim, h⟩
  rcases checkedShift_eq_ok_iff.mp hdim with ⟨hlen, rfl⟩
  split at h
  · exact absurd h refuse_ne_ok
  · next hsize =>
      exact ⟨hlen, not_not.mp hsize⟩

theorem applyDiagonal_of_reaches {entries : Buffer ℝ} (hreach : m.Reaches qs)
    (hn : m.store.qubits < wordBits) (hqs : forall q, q ∈ qs -> q < wordBits)
    (hlen : qs.length < wordBits) (hsize : entries.size = twoPow qs.length) :
    m.applyDiagonal qs entries =
      m.onData (Kernel.diagonalUnitary m.store.qubits qs entries) := by
  have hdirect : (!m.isSplit || qs.all m.place.isLocal) = true := by
    rcases hreach with hwhole | hlocal
    · rw [hwhole]
      rfl
    · rw [all_isLocal_iff.mpr hlocal, Bool.or_true]
  unfold applyDiagonal
  rw [checkedShift_of_lt hlen, ok_bind, if_neg (not_not.mpr hsize), if_pos hdirect]
  exact update_eq_onData (Store.applyDiagonalUnitary_eq hn hqs entries)

theorem applyMatrix_of_reaches {u : Mat ℝ} (hmany : u.rows ≠ 1) (hreach : m.Reaches qs)
    (hn : m.store.qubits < wordBits) (hqs : forall q, q ∈ qs -> q < wordBits)
    (hlen : qs.length < wordBits) (hrows : u.rows = twoPow qs.length)
    (hcols : u.cols = twoPow qs.length) :
    m.applyMatrix qs u = m.onData (Kernel.unitary m.store.qubits qs u.columns) := by
  have hshape : ¬(!u.hasShape (twoPow qs.length) (twoPow qs.length)) = true := by
    rw [Mat.hasShape_iff.mpr ⟨hrows, hcols⟩]
    decide
  unfold applyMatrix
  rw [checkedShift_of_lt hlen, ok_bind, if_neg hmany, if_neg hshape,
    requireLocal_eq_ok_iff.mpr hreach, ok_bind, update_eq_onData (Store.applyUnitary_eq hn hqs _)]

theorem applyMatrix_eq_refuse {u : Mat ℝ} {cause : Refusal}
    (hmany : u.rows ≠ 1) (hlen : qs.length < wordBits) (hrows : u.rows = twoPow qs.length)
    (hcols : u.cols = twoPow qs.length) (hlocal : m.requireLocal "matrix" qs = refuse cause) :
    m.applyMatrix qs u = refuse cause := by
  have hshape : ¬(!u.hasShape (twoPow qs.length) (twoPow qs.length)) = true := by
    rw [Mat.hasShape_iff.mpr ⟨hrows, hcols⟩]
    decide
  unfold applyMatrix
  rw [checkedShift_of_lt hlen, ok_bind, if_neg hmany, if_neg hshape, hlocal]
  rfl

theorem applyMatrix_eq_ok_iff {u : Mat ℝ} (hrows : u.rows ≠ 1)
    (hn : m.store.qubits < wordBits) (hqs : forall q, q ∈ qs -> q < wordBits) :
    m.applyMatrix qs u = .ok m' ↔
      (qs.length < wordBits ∧ u.rows = twoPow qs.length ∧ u.cols = twoPow qs.length ∧
        m.Reaches qs) ∧ m.onData (Kernel.unitary m.store.qubits qs u.columns) = .ok m' := by
  constructor
  · intro h
    unfold applyMatrix at h
    rcases bind_eq_ok_iff.mp h with ⟨dim, hdim, h⟩
    rcases checkedShift_eq_ok_iff.mp hdim with ⟨hlen, rfl⟩
    rw [if_neg hrows] at h
    split at h
    · rcases bind_eq_ok_iff.mp h with ⟨_, _, h⟩
      exact absurd h refuse_ne_ok
    · next hshape =>
        rcases bind_eq_ok_iff.mp h with ⟨_, hlocal, h⟩
        rw [update_eq_onData (Store.applyUnitary_eq hn hqs _)] at h
        rcases Mat.hasShape_iff.mp (by simpa using hshape) with ⟨hr, hc⟩
        exact ⟨⟨hlen, hr, hc, requireLocal_eq_ok_iff.mp hlocal⟩, h⟩
  · rintro ⟨⟨hlen, hr, hc, hreach⟩, h⟩
    rw [← applyMatrix_of_reaches hrows hreach hn hqs hlen hr hc] at h
    exact h

theorem applySuperop_of_reaches {map : Mat ℝ} (hreach : m.Reaches qs)
    (hn : m.store.qubits < wordBits) (hqs : forall q, q ∈ qs -> q < wordBits)
    (hlen : 2 * qs.length < wordBits) (hrows : map.rows = twoPow (2 * qs.length))
    (hcols : map.cols = twoPow (2 * qs.length)) :
    m.applySuperop qs map =
      m.onData (Kernel.dense (bothSides m.store.qubits qs) map.columns) := by
  have hshape : ¬(!map.hasShape (twoPow (2 * qs.length)) (twoPow (2 * qs.length))) = true := by
    rw [Mat.hasShape_iff.mpr ⟨hrows, hcols⟩]
    decide
  unfold applySuperop
  rw [checkedShift_of_lt hlen, ok_bind, if_neg hshape, requireLocal_eq_ok_iff.mpr hreach, ok_bind,
    update_eq_onData (Store.applySuperop_eq hn hqs _)]

theorem applySuperop_eq_ok_iff {map : Mat ℝ} (hn : m.store.qubits < wordBits)
    (hqs : forall q, q ∈ qs -> q < wordBits) :
    m.applySuperop qs map = .ok m' ↔
      (2 * qs.length < wordBits ∧ map.rows = twoPow (2 * qs.length) ∧
        map.cols = twoPow (2 * qs.length) ∧ m.Reaches qs) ∧
      m.onData (Kernel.dense (bothSides m.store.qubits qs) map.columns) = .ok m' := by
  constructor
  · intro h
    unfold applySuperop at h
    rcases bind_eq_ok_iff.mp h with ⟨dim, hdim, h⟩
    rcases checkedShift_eq_ok_iff.mp hdim with ⟨hlen, rfl⟩
    split at h
    · rcases bind_eq_ok_iff.mp h with ⟨_, _, h⟩
      exact absurd h refuse_ne_ok
    · next hshape =>
        rcases bind_eq_ok_iff.mp h with ⟨_, hlocal, h⟩
        rw [update_eq_onData (Store.applySuperop_eq hn hqs _)] at h
        rcases Mat.hasShape_iff.mp (by simpa using hshape) with ⟨hr, hc⟩
        exact ⟨⟨hlen, hr, hc, requireLocal_eq_ok_iff.mp hlocal⟩, h⟩
  · rintro ⟨⟨hlen, hr, hc, hreach⟩, h⟩
    rw [← applySuperop_of_reaches hreach hn hqs hlen hr hc] at h
    exact h

theorem applyKraus_eq_ok_iff {operators : List (Mat ℝ)} :
    m.applyKraus qs operators = .ok m' ↔
      (operators ≠ [] ∧ qs.length < wordBits ∧
        (forall k, k ∈ operators -> k.rows = twoPow qs.length ∧ k.cols = twoPow qs.length)) ∧
      exists map, krausMap operators = .ok map ∧ m.applySuperop qs map = .ok m' := by
  unfold applyKraus
  constructor
  · intro h
    split at h
    · exact absurd h refuse_ne_ok
    · next hempty =>
        rcases bind_eq_ok_iff.mp h with ⟨dim, hdim, h⟩
        rcases checkedShift_eq_ok_iff.mp hdim with ⟨hlen, rfl⟩
        split at h
        · rcases bind_eq_ok_iff.mp h with ⟨_, _, h⟩
          exact absurd h refuse_ne_ok
        · next hnone =>
            rcases bind_eq_ok_iff.mp h with ⟨map, hmap, h⟩
            refine ⟨⟨by simpa using hempty, hlen, ?_⟩, map, hmap, h⟩
            intro k hk
            have hshape := List.find?_eq_none.mp hnone k hk
            exact Mat.hasShape_iff.mp (by simpa using hshape)
  · rintro ⟨⟨hempty, hlen, hshapes⟩, map, hmap, h⟩
    have hnone : operators.find? (fun k => !k.hasShape (twoPow qs.length) (twoPow qs.length))
        = none := by
      rw [List.find?_eq_none]
      intro k hk
      rw [Mat.hasShape_iff.mpr (hshapes k hk)]
      decide
    rw [if_neg (by simpa using hempty), checkedShift_of_lt hlen, ok_bind, hnone]
    dsimp only
    rw [hmap, ok_bind]
    exact h

theorem applyReset_eq_ok_iff (hn : m.store.qubits < wordBits)
    (hqs : forall q, q ∈ qs -> q < wordBits) :
    m.applyReset qs = .ok m' ↔
      m.Reaches qs ∧ exists columns, resetMap qs.length = .ok columns ∧
        m.onData (Kernel.dense (bothSides m.store.qubits qs) columns) = .ok m' := by
  have hkernel : forall columns, m.update (fun store => store.applySuperop qs columns) =
      m.onData (Kernel.dense (bothSides m.store.qubits qs) columns) :=
    fun columns => update_eq_onData (Store.applySuperop_eq hn hqs columns)
  unfold applyReset
  rw [bind_eq_ok_iff]
  constructor
  · rintro ⟨_, hlocal, h⟩
    refine ⟨requireLocal_eq_ok_iff.mp hlocal, ?_⟩
    rcases bind_eq_ok_iff.mp h with ⟨store, hstore, h⟩
    rcases bind_eq_ok_iff.mp hstore with ⟨columns, hcolumns, hstore⟩
    refine ⟨columns, hcolumns, ?_⟩
    rw [← hkernel columns]
    exact bind_eq_ok_iff.mpr ⟨store, hstore, h⟩
  · rintro ⟨hreach, columns, hcolumns, h⟩
    refine ⟨(), requireLocal_eq_ok_iff.mpr hreach, ?_⟩
    rw [← hkernel columns] at h
    rcases bind_eq_ok_iff.mp h with ⟨store, hstore, h⟩
    exact bind_eq_ok_iff.mpr ⟨store, bind_eq_ok_iff.mpr ⟨columns, hcolumns, hstore⟩, h⟩

theorem applyReset_of_reaches (hreach : m.Reaches qs) (hn : m.store.qubits < wordBits)
    (hqs : forall q, q ∈ qs -> q < wordBits) :
    m.applyReset qs = (resetMap qs.length >>= fun columns =>
      m.onData (Kernel.dense (bothSides m.store.qubits qs) columns)) := by
  have hkernel : forall columns, m.update (fun store => store.applySuperop qs columns) =
      m.onData (Kernel.dense (bothSides m.store.qubits qs) columns) :=
    fun columns => update_eq_onData (Store.applySuperop_eq hn hqs columns)
  unfold applyReset
  rw [requireLocal_eq_ok_iff.mpr hreach, ok_bind]
  simp only [← hkernel]
  unfold update Store.applyReset
  rw [bind_assoc]

theorem resetMap_eq_ok_iff {k : Nat} {columns : Buffer ℝ} :
    resetMap k = .ok columns ↔
      (k < wordBits ∧ twoPow k * twoPow k < wordSize ∧
        twoPow k * twoPow k * (twoPow k * twoPow k) < wordSize ∧
        twoPow k * twoPow k * (twoPow k * twoPow k) * 16 < bufferLimit) ∧
      columns = Buffer.tabulate (twoPow k * twoPow k * (twoPow k * twoPow k)) fun i =>
        if i % (twoPow k * twoPow k) = 0 ∧
            i / (twoPow k * twoPow k) % twoPow k = i / (twoPow k * twoPow k) / twoPow k then 1
        else 0 := by
  unfold resetMap
  constructor
  · intro h
    rcases bind_eq_ok_iff.mp h with ⟨dim, hdim, h⟩
    rcases checkedShift_eq_ok_iff.mp hdim with ⟨hk, rfl⟩
    rcases bind_eq_ok_iff.mp h with ⟨square, hsquare, h⟩
    rcases checkedMul_eq_ok_iff.mp hsquare with ⟨hsmall, rfl⟩
    rcases bind_eq_ok_iff.mp h with ⟨count, hcount, h⟩
    rcases checkedMul_eq_ok_iff.mp hcount with ⟨hsquares, rfl⟩
    rcases bind_eq_ok_iff.mp h with ⟨_, hmemory, h⟩
    cases h
    exact ⟨⟨hk, hsmall, hsquares, of_decide_eq_true (orCrash_eq_ok_iff.mp hmemory)⟩, rfl⟩
  · rintro ⟨⟨hk, hsmall, hsquares, hmemory⟩, rfl⟩
    rw [checkedShift_of_lt hk, ok_bind, checkedMul_of_lt hsmall, ok_bind,
      checkedMul_of_lt hsquares, ok_bind, allocate_of_lt hmemory]
    rfl

theorem applyPauli_eq_ok_iff {op : Instruction ℝ} (hn : m.store.qubits < wordBits)
    (hqs : forall q, q ∈ op.qubits -> q < wordBits) :
    m.applyPauli op = .ok m' ↔
      exists string rest, op.texts = string :: rest ∧
        m.onData (Kernel.pauli (bothSides m.store.qubits op.qubits) (string ++ string)
          (ySign string)) = .ok m' := by
  unfold applyPauli
  cases htexts : op.texts with
  | nil =>
      constructor
      · intro h
        exact absurd h refuse_ne_ok
      · rintro ⟨string, rest, hcons, _⟩
        cases hcons
  | cons string rest =>
      dsimp only
      rw [Store.bothBits_eq_ok hn hqs, ok_bind]
      constructor
      · intro h
        exact ⟨string, rest, rfl, h⟩
      · rintro ⟨string', rest', hcons, h⟩
        cases hcons
        exact h

end Machine

end MixedState
