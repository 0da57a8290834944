import MixedState.Proofs.Machine.Losses
import MixedState.Proofs.Machine.Shape
import MixedState.Proofs.Partition.Siblings

/-!
# Operators stay inside the buffer

On a full buffer, with distinct qubits of a register that leaves room for superoperators on
all of it, no operator leaves the word, the buffer or what it is given: it succeeds or is
refused, on a whole register and on a chunk.
-/

namespace MixedState

open MixedState.Basis

/-!
## Computations that do not crash
-/

section Outcomes

variable {α β : Type}

theorem noCrash_of_eq_ok {x : Outcome α} {a : α} (h : x = .ok a) : NoCrash x := by
  rw [h]
  exact noCrash_ok a

theorem Gives.noCrash {P : α -> Prop} {x : Outcome α} (h : Gives P x) : NoCrash x := by
  rcases h with ⟨a, ha, _⟩
  exact noCrash_of_eq_ok ha

theorem NoCrash.map {x : Outcome α} (h : NoCrash x) (f : α -> β) : NoCrash (x.map f) := by
  cases x with
  | ok a =>
      exact noCrash_ok _
  | error fault =>
      rcases h.eq_refuse rfl with ⟨cause, rfl⟩
      exact noCrash_refuse cause

theorem NoCrash.mapM {f : α -> Outcome β} {xs : List α} (h : forall a, a ∈ xs -> NoCrash (f a)) :
    NoCrash (xs.mapM f) := by
  induction xs with
  | nil =>
      exact noCrash_ok []
  | cons a rest ih =>
      rcases List.forall_mem_cons.mp h with ⟨ha, hrest⟩
      rw [List.mapM_cons]
      exact ha.bind fun _ _ => (ih hrest).bind fun _ _ => noCrash_ok _

theorem noCrash_wrongSize (what : String) (got : Nat) {k : Nat} (hk : 2 * k < wordBits) :
    NoCrash (checkedMul (twoPow k) (twoPow k) >>= fun count =>
      (refuse (.elementCount what count got) : Outcome α)) := by
  have hsmall : twoPow k * twoPow k < wordSize := by
    rw [← twoPow_two_mul, wordSize_eq]
    exact twoPow_lt_twoPow hk
  rw [checkedMul_of_lt hsmall]
  exact noCrash_refuse _

end Outcomes

theorem Route.ofSides_ne_direct (op : Instruction ℝ) (rowsHold columnsHold : Bool) :
    Route.ofSides op rowsHold columnsHold ≠ .direct := by
  intro h
  cases rowsHold <;> cases columnsHold <;> unfold ofSides at h
  · cases h
  · cases h
  · cases h
  · dsimp only at h
    split at h <;> cases h

namespace Machine

/-- The machine holds all entries of chunk `k` of `L` qubits, of a register of `N` that
leaves room for superoperators, and the listed qubits are distinct qubits of the register. -/
structure Addresses (N L k : Nat) (m : Machine ℝ) (qs : List Nat) : Prop
    extends m.HasShape N L k where
  le : L ≤ N
  small : 4 * N < wordBits
  nodup : qs.Nodup
  inside : forall q, q ∈ qs -> q < N

variable {N L k : Nat} {m : Machine ℝ} {qs : List Nat} {op : Instruction ℝ} {gate : Gate}

theorem noCrash_requireLocal (m : Machine ℝ) (name : String) (qs : List Nat) :
    NoCrash (m.requireLocal name qs) := by
  unfold requireLocal
  split
  · split
    · exact noCrash_refuse _
    · exact noCrash_ok ()
  · exact noCrash_ok ()

theorem noCrash_onData {kernel : Buffer ℝ -> Outcome (Buffer ℝ)}
    (h : NoCrash (kernel m.store.data)) : NoCrash (m.onData kernel) := by
  unfold onData update Store.transform
  exact (h.bind fun _ _ => noCrash_ok _).bind fun _ _ => noCrash_ok _

namespace Addresses

theorem length_lt (h : m.Addresses N L k qs) : qs.length < 16 := by
  have hlen := length_le_of_nodup h.nodup h.inside
  have hsmall := h.small
  unfold wordBits at hsmall
  omega

theorem twice_lt (h : m.Addresses N L k qs) : 2 * L < wordBits := by
  have hle := h.le
  have hsmall := h.small
  omega

theorem store_lt (h : m.Addresses N L k qs) : m.store.qubits < wordBits := by
  have htwice := h.twice_lt
  rw [h.store.qubits]
  omega

theorem lt_wordBits (h : m.Addresses N L k qs) : forall q, q ∈ qs -> q < wordBits := by
  have hsmall := h.small
  exact lt_wordBits_of_lt (by omega) h.inside

theorem length_lt_wordBits (h : m.Addresses N L k qs) : qs.length < wordBits :=
  Nat.lt_trans h.length_lt (by decide)

theorem lt_of_reaches (h : m.Addresses N L k qs) (hreach : m.Reaches qs) :
    forall q, q ∈ qs -> q < L := by
  rcases hreach with hwhole | hlocal
  · rw [h.isSplit, decide_eq_false_iff_not] at hwhole
    intro q hq
    exact Nat.lt_of_lt_of_le (h.inside q hq) (Nat.le_of_not_lt hwhole)
  · rw [h.store.qubits] at hlocal
    exact hlocal

theorem globalCount_eq_ok (h : m.Addresses N L k qs) :
    checkedShift m.place.globalCount = .ok (twoPow m.place.globalCount) := by
  have hsmall := h.small
  apply checkedShift_of_lt
  change m.width - m.store.qubits < wordBits
  rw [h.width]
  omega

/-!
## Diagonals
-/

theorem lt_of_restrictDiagonal {bits : Nat} {inside : List Nat} {entries reduced : Buffer ℝ}
    (h : m.Addresses N L k qs) (hsplit : L < N) (hsize : entries.size = twoPow qs.length)
    (hrestrict : restrictDiagonal bits L qs entries = .ok (inside, reduced)) :
    (forall q, q ∈ inside -> q < N) ∧ inside.length < 16 := by
  have hlen := h.length_lt
  rcases (restrictDiagonal_eq_ok hsize hrestrict).2 with ⟨_, rfl, _⟩ | ⟨_, rfl, _⟩
  · exact ⟨fun q hq => h.inside q (List.mem_of_mem_filter hq),
      Nat.lt_of_le_of_lt (List.length_filter_le _ qs) hlen⟩
  · refine ⟨fun q hq => ?_, (by decide : 1 < 16)⟩
    rw [List.mem_singleton.mp hq]
    exact Nat.lt_of_le_of_lt (Nat.zero_le L) hsplit

theorem noCrash_diagonal {inside : List Nat} {rows columns : Buffer ℝ}
    (h : m.Addresses N L k qs) (hinside : forall q, q ∈ inside -> q < N)
    (hfew : inside.length < 16) (hrows : rows.size = twoPow inside.length)
    (hcolumns : columns.size = twoPow inside.length) :
    NoCrash (m.onData (Kernel.diagonal (bothSides L inside) (columns.conj.tensor rows))) := by
  have hle := h.le
  have hsmall := h.small
  have hboth : forall p, p ∈ bothSides L inside -> p < wordBits := by
    intro p hp
    rcases List.mem_append.mp hp with hp | hp
    · have hlt := hinside p hp
      omega
    · rcases List.mem_map.mp hp with ⟨q, hq, rfl⟩
      have hlt := hinside q hq
      change q + L < wordBits
      omega
  apply noCrash_onData
  refine (Kernel.gives_diagonal rfl hboth ?_ ?_).noCrash
  · rw [length_bothSides]
    unfold wordBits
    omega
  · rw [length_bothSides, twoPow_two_mul, Buffer.size_tensor, Buffer.size_conj, hrows, hcolumns]

theorem noCrash_applyDiagonal_of_reaches {entries : Buffer ℝ} (h : m.Addresses N L k qs)
    (hsize : entries.size = twoPow qs.length) (hreach : m.Reaches qs) :
    NoCrash (m.applyDiagonal qs entries) := by
  rw [applyDiagonal_of_reaches hreach h.store_lt h.lt_wordBits h.length_lt_wordBits hsize,
    h.store.qubits]
  exact h.noCrash_diagonal h.inside h.length_lt hsize hsize

theorem noCrash_applyDiagonal_of_split {entries : Buffer ℝ} (h : m.Addresses N L k qs)
    (hsize : entries.size = twoPow qs.length) (hsplit : m.isSplit = true)
    (hglobal : ¬qs.all m.place.isLocal = true) : NoCrash (m.applyDiagonal qs entries) := by
  have hless : L < N := by
    rw [h.isSplit] at hsplit
    exact of_decide_eq_true hsplit
  have hsmall := h.small
  have hexists : forall bits, exists inside reduced,
      restrictDiagonal bits L qs entries = .ok (inside, reduced) := fun bits =>
    exists_restrictDiagonal (fun q hq => Nat.lt_add_left L (h.lt_wordBits q hq))
      (Nat.le_of_lt h.length_lt_wordBits) bits entries
  rcases hexists (m.place.index % twoPow m.place.globalCount) with ⟨inside, rows, hrows⟩
  rcases hexists (m.place.index / twoPow m.place.globalCount) with ⟨inside', columns, hcolumns⟩
  obtain rfl := inside_eq_of_restrictDiagonal hsize hrows hcolumns
  rcases h.lt_of_restrictDiagonal hless hsize hrows with ⟨hinside, hfew⟩
  have hword : forall q, q ∈ inside -> q < wordBits := lt_wordBits_of_lt (by omega) hinside
  unfold applyDiagonal Place.rowBits Place.columnBits
  rw [checkedShift_of_lt h.length_lt_wordBits, ok_bind, if_neg (not_not.mpr hsize), hsplit,
    Bool.not_true, Bool.false_or, if_neg hglobal, h.globalCount_eq_ok, h.store.qubits]
  change NoCrash (restrictDiagonal (m.place.index % twoPow m.place.globalCount) L qs entries
    >>= _)
  rw [hrows, ok_bind]
  change NoCrash (restrictDiagonal (m.place.index / twoPow m.place.globalCount) L qs entries
    >>= _)
  rw [hcolumns, ok_bind]
  dsimp only
  rw [Store.bothBits_eq_ok h.store_lt hword, ok_bind, h.store.qubits]
  exact h.noCrash_diagonal hinside hfew (restrictDiagonal_eq_ok hsize hrows).1
    (restrictDiagonal_eq_ok hsize hcolumns).1

theorem noCrash_applyDiagonal (h : m.Addresses N L k qs) (entries : Buffer ℝ) :
    NoCrash (m.applyDiagonal qs entries) := by
  by_cases hsize : entries.size = twoPow qs.length
  · cases hsplit : m.isSplit with
    | false =>
        exact h.noCrash_applyDiagonal_of_reaches hsize (Or.inl hsplit)
    | true =>
        by_cases hlocal : qs.all m.place.isLocal = true
        · exact h.noCrash_applyDiagonal_of_reaches hsize (Or.inr (all_isLocal_iff.mp hlocal))
        · exact h.noCrash_applyDiagonal_of_split hsize hsplit hlocal
  · unfold applyDiagonal
    rw [checkedShift_of_lt h.length_lt_wordBits, ok_bind, if_pos hsize]
    exact noCrash_refuse _

/-!
## Matrices and channels
-/

theorem noCrash_dense {bits : List Nat} {columns : Buffer ℝ} (h : m.Addresses N L k qs)
    (hbits : forall p, p ∈ bits -> p < 2 * L) (hlen : bits.length < 59)
    (hsize : twoPow bits.length * twoPow bits.length ≤ columns.size) :
    NoCrash (m.onData (Kernel.dense bits columns)) :=
  noCrash_onData (noCrash_of_eq_ok
    (Kernel.dense_eq_merge hbits (Nat.le_of_lt h.twice_lt) h.store.size_data hlen hsize))

theorem noCrash_applyMatrix (h : m.Addresses N L k qs) (u : Mat ℝ) :
    NoCrash (m.applyMatrix qs u) := by
  have hlen := h.length_lt
  by_cases hrow : u.rows = 1
  · unfold applyMatrix
    rw [checkedShift_of_lt h.length_lt_wordBits, ok_bind, if_pos hrow]
    exact h.noCrash_applyDiagonal u.entries
  · by_cases hshape : u.hasShape (twoPow qs.length) (twoPow qs.length) = true
    · rcases Mat.hasShape_iff.mp hshape with ⟨hrows, hcols⟩
      by_cases hreach : m.Reaches qs
      · rw [applyMatrix_of_reaches hrow hreach h.store_lt h.lt_wordBits h.length_lt_wordBits
          hrows hcols, h.store.qubits]
        have hgives := Kernel.gives_unitary (h.lt_of_reaches hreach) (Nat.le_of_lt h.twice_lt)
          (Nat.lt_trans hlen (by decide)) (by rw [Mat.size_columns, hrows, hcols])
        rcases hgives m.store.data h.store.size_data with ⟨b, hb, _⟩
        exact noCrash_onData (noCrash_of_eq_ok hb)
      · unfold applyMatrix
        rw [checkedShift_of_lt h.length_lt_wordBits, ok_bind, if_neg hrow, hshape, Bool.not_true,
          if_neg Bool.false_ne_true]
        exact (noCrash_requireLocal m _ qs).bind fun _ hlocal =>
          absurd (requireLocal_eq_ok_iff.mp hlocal) hreach
    · unfold applyMatrix
      rw [checkedShift_of_lt h.length_lt_wordBits, ok_bind, if_neg hrow,
        Bool.eq_false_iff.mpr hshape, Bool.not_false, if_pos rfl]
      exact noCrash_wrongSize _ _ (by unfold wordBits; omega)

theorem noCrash_applySuperop (h : m.Addresses N L k qs) (map : Mat ℝ) :
    NoCrash (m.applySuperop qs map) := by
  have hlen := h.length_lt
  have htwice : 2 * qs.length < wordBits := by
    unfold wordBits
    omega
  by_cases hshape : map.hasShape (twoPow (2 * qs.length)) (twoPow (2 * qs.length)) = true
  · rcases Mat.hasShape_iff.mp hshape with ⟨hrows, hcols⟩
    by_cases hreach : m.Reaches qs
    · rw [applySuperop_of_reaches hreach h.store_lt h.lt_wordBits htwice hrows hcols,
        h.store.qubits]
      apply h.noCrash_dense (lt_of_mem_bothSides (h.lt_of_reaches hreach))
      · rw [length_bothSides]
        omega
      · rw [length_bothSides, Mat.size_columns, hrows, hcols]
    · unfold applySuperop
      rw [checkedShift_of_lt htwice, ok_bind, hshape, Bool.not_true,
        if_neg Bool.false_ne_true]
      exact (noCrash_requireLocal m _ qs).bind fun _ hlocal =>
        absurd (requireLocal_eq_ok_iff.mp hlocal) hreach
  · unfold applySuperop
    rw [checkedShift_of_lt htwice, ok_bind, Bool.eq_false_iff.mpr hshape, Bool.not_false,
      if_pos rfl]
    exact noCrash_wrongSize _ _ (by unfold wordBits; omega)

theorem noCrash_applyKraus (h : m.Addresses N L k qs) {ks : List (Mat ℝ)}
    (hroom : ks ≠ [] ->
      (forall u, u ∈ ks -> u.rows = twoPow qs.length ∧ u.cols = twoPow qs.length) ->
        qs.length < 15) :
    NoCrash (m.applyKraus qs ks) := by
  have hlen := h.length_lt
  unfold applyKraus
  split
  · exact noCrash_refuse _
  · next hempty =>
      have hne : ks ≠ [] := by simpa using hempty
      rw [checkedShift_of_lt h.length_lt_wordBits, ok_bind]
      split
      · exact noCrash_wrongSize _ _ (by unfold wordBits; omega)
      · next hnone =>
          have hshapes : forall u, u ∈ ks ->
              u.rows = twoPow qs.length ∧ u.cols = twoPow qs.length := by
            intro u hu
            have hshape := List.find?_eq_none.mp hnone u hu
            exact Mat.hasShape_iff.mp (by simpa using hshape)
          rcases exists_krausMap (hroom hne hshapes) hne hshapes with ⟨map, hmap⟩
          rw [hmap, ok_bind]
          exact h.noCrash_applySuperop map

theorem noCrash_applyReset (h : m.Addresses N L k qs)
    (hroom : m.Reaches qs -> qs.length < 15) : NoCrash (m.applyReset qs) := by
  by_cases hreach : m.Reaches qs
  · have hlen := hroom hreach
    rcases exists_resetMap hlen with ⟨columns, hcolumns⟩
    have hsize := (isSuperop_resetMap hcolumns).1
    rw [applyReset_of_reaches hreach h.store_lt h.lt_wordBits, hcolumns, ok_bind,
      h.store.qubits]
    apply h.noCrash_dense (lt_of_mem_bothSides (h.lt_of_reaches hreach))
    · rw [length_bothSides]
      omega
    · rw [length_bothSides, hsize]
  · unfold applyReset
    exact (noCrash_requireLocal m _ qs).bind fun _ hlocal =>
      absurd (requireLocal_eq_ok_iff.mp hlocal) hreach

/-!
## Gates
-/

theorem noCrash_applyPauli (h : m.Addresses N L k op.qubits) (hreach : m.Reaches op.qubits) :
    NoCrash (m.applyPauli op) := by
  have hinside := h.lt_of_reaches hreach
  unfold applyPauli
  split
  · exact noCrash_refuse _
  · next string rest htexts =>
      rw [Store.bothBits_eq_ok h.store_lt h.lt_wordBits, ok_bind, h.store.qubits]
      apply noCrash_onData
      change NoCrash (Kernel.pauli (bothSides L op.qubits) (string ++ string) (ySign string)
        m.store.data)
      cases hmasks : PauliMasks.ofString (bothSides L op.qubits) (string ++ string) with
      | ok masks =>
          rcases Kernel.keepsTrace_pauli (spells_of_ofString_eq_ok hmasks).of_bothSides
            h.twice_lt hinside m.store.data h.store.size_data with ⟨b, hb, _⟩
          exact noCrash_of_eq_ok hb
      | error fault =>
          have hanswers := PauliMasks.noCrash_ofString
            (bothSides_lt_wordBits h.twice_lt hinside) (string ++ string)
          rcases hanswers.eq_refuse hmasks with ⟨cause, rfl⟩
          unfold Kernel.pauli
          rw [hmasks]
          exact noCrash_refuse cause

theorem noCrash_sided (h : m.Addresses N L k qs) (hinside : forall q, q ∈ qs -> q < L)
    (s : Sided) : NoCrash (m.onData (s.both L qs)) := by
  have hrows : forall q, q ∈ qs -> q < 2 * L := by
    intro q hq
    have hlt := hinside q hq
    omega
  have hword := Nat.le_of_lt h.twice_lt
  apply noCrash_onData
  cases s with
  | flip =>
      exact ((Kernel.gives_flip h.store.size_data hword hrows).bind fun b hb =>
        Kernel.gives_flip hb hword (lt_of_mem_sideBits hinside)).noCrash
  | flipY =>
      exact ((Kernel.gives_flipY false h.store.size_data hword hrows).bind fun b hb =>
        Kernel.gives_flipY true hb hword (lt_of_mem_sideBits hinside)).noCrash
  | phase factor =>
      exact ((Kernel.gives_phase factor h.store.size_data h.lt_wordBits).bind fun b hb =>
        Kernel.gives_phase factor.conj hb (sideBits_lt_wordBits h.twice_lt hinside)).noCrash

theorem noCrash_applyLocal (h : m.Addresses N L k op.qubits)
    (hcheck : checkGate op gate = .ok ())
    (hreach : m.Reaches op.qubits ∨ (gate.action op).isDiagonal = true) :
    NoCrash (m.applyLocal op gate) := by
  have hwidth := (checkGate_eq_ok_iff.mp hcheck).1
  have hfits := gate.action_fits op hwidth
  rw [applyLocal_eq_enact hwidth h.store_lt h.lt_wordBits]
  cases haction : gate.action op with
  | nothing =>
      exact noCrash_ok m
  | diagonal entries =>
      exact h.noCrash_applyDiagonal entries
  | matrix u =>
      exact h.noCrash_applyMatrix u
  | sided s =>
      rw [haction] at hreach
      have hinside := h.lt_of_reaches (hreach.resolve_right Bool.false_ne_true)
      unfold enact
      rw [h.store.qubits]
      exact h.noCrash_sided hinside s
  | swap =>
      rw [haction] at hreach hfits
      have hinside := h.lt_of_reaches (hreach.resolve_right Bool.false_ne_true)
      rcases List.length_eq_two.mp hfits with ⟨p, q, hpair⟩
      rw [hpair] at hinside
      unfold enact
      rw [h.store.qubits, hpair]
      rcases Kernel.keepsTrace_swap h.twice_lt (hinside p (by simp)) (hinside q (by simp))
        m.store.data h.store.size_data with ⟨b, hb, _⟩
      exact noCrash_onData (noCrash_of_eq_ok hb)
  | pauli =>
      rw [haction] at hreach
      exact h.noCrash_applyPauli (hreach.resolve_right Bool.false_ne_true)

theorem reaches_of_route (hroute : route op gate m.place = .ok .direct) :
    m.Reaches op.qubits ∨ (gate.action op).isDiagonal = true := by
  by_cases hdirect : (!m.place.isSplit || op.qubits.all m.place.isLocal) = true
  · left
    rcases (Bool.or_eq_true _ _).mp hdirect with hwhole | hlocal
    · exact Or.inl (Bool.not_eq_eq_eq_not.mp hwhole)
    · exact Or.inr (all_isLocal_iff.mp hlocal)
  · right
    unfold route at hroute
    rw [if_neg hdirect] at hroute
    dsimp only at hroute
    split at hroute
    · next hcount =>
        split at hroute
        · next hdiagonal =>
            have hnone : op.qubits.length ≠ 0 := by
              intro hnil
              rw [List.length_eq_zero_iff.mp hnil] at hdirect
              exact hdirect (Bool.or_true _)
            exact gate.isDiagonal_action op (by omega) hdiagonal
        · exact absurd hroute refuse_ne_ok
    · split at hroute
      · exact absurd hroute refuse_ne_ok
      · split at hroute
        · cases hroute
        · split at hroute
          · exact absurd hroute refuse_ne_ok
          · rcases bind_eq_ok_iff.mp hroute with ⟨rowBits, _, hroute⟩
            rcases bind_eq_ok_iff.mp hroute with ⟨columnBits, _, hroute⟩
            exact absurd (Except.ok.inj hroute) (Route.ofSides_ne_direct _ _ _)

theorem noCrash_route (h : m.Addresses N L k op.qubits) : NoCrash (route op gate m.place) := by
  unfold route Place.rowBits Place.columnBits
  dsimp only
  rw [h.globalCount_eq_ok]
  split
  · exact noCrash_ok _
  · split
    · split
      · exact noCrash_ok _
      · exact noCrash_refuse _
    · split
      · exact noCrash_refuse _
      · split
        · next hfar =>
            have hword : ((op.qubits.take (min gate.controlCount op.qubits.length)).filter
                fun q => !m.place.isLocal q).all
                (fun q => q - m.place.width < wordBits) = true := by
              rw [List.all_eq_true]
              intro q hq
              have hlt := h.lt_wordBits q (List.mem_of_mem_take (List.mem_of_mem_filter hq))
              exact decide_eq_true (by omega)
            rw [hword] at hfar
            exact absurd hfar (by decide)
        · split
          · exact noCrash_refuse _
          · exact noCrash_ok _

theorem noCrash_applyRouted (h : m.Addresses N L k op.qubits)
    (hcheck : checkGate op gate = .ok ()) : NoCrash (m.applyRouted op gate) := by
  have hwidth := (checkGate_eq_ok_iff.mp hcheck).1
  cases hstring : diagonalString? op gate with
  | some string =>
      unfold applyRouted pauliDiagonal
      rw [hstring]
      dsimp only
      rw [checkedShift_of_lt h.length_lt_wordBits, ok_bind, 
        allocate_sixteen_of_lt (Nat.lt_trans h.length_lt (by decide))]
      exact h.noCrash_applyDiagonal _
  | none =>
      rcases (route_alike m.place m.place.index hwidth).cases with
        ⟨r, _, hroute, _, hsimilar⟩ | ⟨fault, hroute, _⟩
      · cases hsimilar with
        | direct =>
            unfold applyRouted
            rw [hstring]
            dsimp only
            rw [hroute, ok_bind]
            exact h.noCrash_applyLocal hcheck (reaches_of_route hroute)
        | sides hleft =>
            have hleft' := hleft
            change Instruction.IsRemnant _ m.store.qubits at hleft'
            rw [h.store.qubits] at hleft'
            exact (gives_applyRouted h.store h.twice_lt hstring hleft' hroute).noCrash
      · rcases h.noCrash_route.eq_refuse hroute with ⟨cause, rfl⟩
        unfold applyRouted
        rw [hstring]
        dsimp only
        rw [hroute]
        exact noCrash_refuse cause

theorem noCrash_applyGate (h : m.Addresses N L k op.qubits) : NoCrash (m.applyGate op) := by
  unfold applyGate Gate.ofName
  cases Gate.ofName? op.name with
  | none =>
      exact noCrash_refuse _
  | some gate =>
      dsimp only
      rw [ok_bind]
      apply (noCrash_checkGate op gate).bind
      intro _ hcheck
      split
      · exact h.noCrash_applyRouted hcheck
      · next hwhole =>
          exact h.noCrash_applyLocal hcheck (Or.inl (Or.inl (Bool.eq_false_iff.mpr hwhole)))

/-!
## Loading and projection
-/

theorem noCrash_requireAllQubits (m : Machine ℝ) (op : Instruction ℝ) :
    NoCrash (m.requireAllQubits op) := by
  unfold requireAllQubits requireWhole
  split
  · exact noCrash_refuse _
  · rw [ok_bind]
    split
    · exact noCrash_refuse _
    · exact noCrash_ok ()

theorem dims (h : m.Addresses N L k qs) : m.store.dim = .ok (twoPow L) ∧
    checkedMul (twoPow L) (twoPow L) = .ok (twoPow L * twoPow L) := by
  have htwice := h.twice_lt
  constructor
  · unfold Store.dim
    rw [h.store.qubits, checkedShift_of_lt (by omega)]
  · apply checkedMul_of_lt
    rw [← twoPow_two_mul, wordSize_eq]
    exact twoPow_lt_twoPow htwice

theorem noCrash_setVector (h : m.Addresses N L k op.qubits) : NoCrash (m.setVector op) := by
  have hsmall := h.small
  unfold setVector
  apply (noCrash_requireAllQubits m op).bind
  intro _ _
  rw [h.width, checkedShift_of_lt (by omega), ok_bind]
  split
  · exact noCrash_refuse _
  · refine NoCrash.bind ?_ fun _ _ => noCrash_ok _
    unfold Store.loadVector
    dsimp only
    rw [h.dims.1, ok_bind, h.dims.2, ok_bind]
    split
    · exact noCrash_ok _
    · split
      · exact noCrash_ok _
      · exact noCrash_refuse _

theorem noCrash_setMatrix (h : m.Addresses N L k op.qubits) : NoCrash (m.setMatrix op) := by
  unfold setMatrix
  apply (noCrash_requireAllQubits m op).bind
  intro _ _
  split
  · exact noCrash_refuse _
  · refine NoCrash.bind ?_ fun _ _ => noCrash_ok _
    unfold Store.loadMatrix
    dsimp only
    rw [h.dims.1, ok_bind]
    split
    · exact noCrash_ok _
    · rw [h.dims.2]
      exact noCrash_refuse _

theorem noCrash_project (h : m.Addresses N L k qs) {outcome : Nat}
    (houtcome : outcome < twoPow qs.length) (probability : ℝ) :
    NoCrash (m.project qs outcome probability) := by
  rw [project_eq_applyDiagonal (Nat.lt_trans h.length_lt (by decide)) houtcome]
  exact h.noCrash_applyDiagonal _

end Addresses

end Machine

end MixedState
