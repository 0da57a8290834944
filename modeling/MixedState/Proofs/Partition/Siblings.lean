import MixedState.Machine.Run
import MixedState.Proofs.Density.Sizes
import MixedState.Proofs.Machine.Controlled
import MixedState.Proofs.Partition.Diagonal

/-!
# The chunks of one register

The chunks of a register differ in their place and in their entries.  An instruction is
refused on one of them only for a cause that all of them share: what the place decides is
the sides that a gate acts on, and no side fails.
-/

namespace MixedState

variable {R : Type} [Scalar R]

/-!
## Global bits
-/

theorem Place.rowBits_alike (place : Place) (index : Nat) :
    Alike (fun _ _ => True) place.rowBits { place with index := index }.rowBits := by
  apply Alike.after
  intro count _
  exact .ok trivial

theorem Place.columnBits_alike (place : Place) (index : Nat) :
    Alike (fun _ _ => True) place.columnBits { place with index := index }.columnBits := by
  apply Alike.after
  intro count _
  exact .ok trivial

theorem restrictDiagonal_alike {bits bits' width : Nat} {qs : List Nat} {entries : Buffer R}
    (hsize : entries.size = twoPow qs.length) :
    Alike (fun p p' => p.1 = p'.1 ∧ SameSize (twoPow p.1.length) p.2 p'.2)
      (restrictDiagonal bits width qs entries) (restrictDiagonal bits' width qs entries) := by
  cases hall : restrictable width qs with
  | false =>
      unfold restrictDiagonal
      rw [hall]
      exact .error .crash
  | true =>
      have hok : forall bits, exists inside reduced,
          restrictDiagonal bits width qs entries = .ok (inside, reduced) := by
        intro bits
        unfold restrictDiagonal
        rw [hall, orCrash_of_true rfl, ok_bind]
        dsimp only
        split
        · exact ⟨_, _, rfl⟩
        · exact ⟨_, _, rfl⟩
      rcases hok bits with ⟨inside, reduced, hleft⟩
      rcases hok bits' with ⟨inside', reduced', hright⟩
      have hinside := inside_eq_of_restrictDiagonal hsize hleft hright
      rw [hleft, hright]
      refine .ok ⟨hinside, (restrictDiagonal_eq_ok hsize hleft).1, ?_⟩
      change reduced'.size = twoPow inside.length
      rw [hinside]
      exact (restrictDiagonal_eq_ok hsize hright).1

/-!
## Siblings
-/

/-- Machines that hold chunks of one register and agree in all but the place of the chunk
and its entries. -/
structure Machine.Siblings (m m' : Machine R) : Prop where
  width : m.width = m'.width
  classical : m.classical = m'.classical
  settings : m.settings = m'.settings
  stores : Store.SameShape m.store.qubits (twoPow (2 * m.store.qubits)) m.store m'.store
  split : m.store.qubits < m.width
  word : 2 * m.store.qubits < wordBits

namespace Machine.Siblings

variable {m m' : Machine R} {qubits : List Nat} {op : Instruction R} {gate : Gate}

omit [Scalar R] in
theorem qubits_eq (h : Siblings m m') : m'.store.qubits = m.store.qubits :=
  h.stores.2.qubits

omit [Scalar R] in
theorem isSplit (h : Siblings m m') : m.isSplit = true :=
  decide_eq_true h.split

omit [Scalar R] in
theorem isSplit' (h : Siblings m m') : m'.isSplit = true := by
  have hsplit := h.split
  rw [h.width, ← h.qubits_eq] at hsplit
  exact decide_eq_true hsplit

omit [Scalar R] in
theorem place_eq (h : Siblings m m') :
    m'.place = { m.place with index := m'.store.chunk } := by
  unfold place
  rw [← h.width, h.qubits_eq]

omit [Scalar R] in
theorem isLocal_eq (h : Siblings m m') : m'.place.isLocal = m.place.isLocal := by
  rw [h.place_eq]
  rfl

omit [Scalar R] in
theorem requireLocal_eq (h : Siblings m m') (name : String) (qubits : List Nat) :
    m.requireLocal name qubits = m'.requireLocal name qubits := by
  unfold requireLocal
  rw [h.isSplit, h.isSplit', h.isLocal_eq]

omit [Scalar R] in
theorem withStores (h : Siblings m m') {s t : Store R}
    (hstores : Store.SameShape m.store.qubits (twoPow (2 * m.store.qubits)) s t) :
    Siblings { m with store := s } { m' with store := t } where
  width := h.width
  classical := h.classical
  settings := h.settings
  stores := by
    change Store.SameShape s.qubits (twoPow (2 * s.qubits)) s t
    rw [hstores.1.qubits]
    exact hstores
  split := by
    change s.qubits < m.width
    rw [hstores.1.qubits]
    exact h.split
  word := by
    change 2 * s.qubits < wordBits
    rw [hstores.1.qubits]
    exact h.word

omit [Scalar R] in
theorem update (h : Siblings m m') {f g : Store R -> Outcome (Store R)}
    (hop : forall {n size : Nat} {s t : Store R}, Store.SameShape n size s t ->
      Alike (Store.SameShape n size) (f s) (g t)) :
    Alike Siblings (m.update f) (m'.update g) := by
  apply (hop h.stores).bind
  intro s t hst
  exact .ok (h.withStores hst)

/-!
## Diagonals
-/

theorem applyDiagonal (h : Siblings m m') (entries : Buffer R) :
    Alike Siblings (m.applyDiagonal qubits entries) (m'.applyDiagonal qubits entries) := by
  unfold Machine.applyDiagonal
  rw [h.isSplit, h.isSplit', h.isLocal_eq, h.qubits_eq]
  apply Alike.after
  intro dim hdim
  rcases checkedShift_eq_ok_iff.mp hdim with ⟨_, rfl⟩
  split
  · exact .error _
  · next hsize =>
      have hsize : entries.size = twoPow qubits.length := not_not.mp hsize
      split
      · exact h.update fun hst => Store.applyDiagonalUnitary_alike hst entries
      · rw [h.place_eq]
        apply (m.place.rowBits_alike _).bind
        intro rowBits rowBits' _
        apply (restrictDiagonal_alike hsize).bind
        intro rows rows' hrows
        apply (m.place.columnBits_alike _).bind
        intro columnBits columnBits' _
        apply (restrictDiagonal_alike hsize).bind
        intro columns columns' hcolumns
        dsimp only
        rw [hrows.1, h.stores.bothBits_eq]
        apply Alike.after
        intro bits _
        apply h.update
        intro n size s t hst
        apply Store.transform_alike hst
        intro a b hab
        apply Kernel.diagonal_alike bits _ hab
        · exact twoPow columns.1.length * twoPow rows.1.length
        · constructor
          · rw [Buffer.size_tensor, Buffer.size_conj, hcolumns.2.1, hrows.2.1]
          · rw [Buffer.size_tensor, Buffer.size_conj, hcolumns.2.2, hrows.2.2]

/-!
## Matrices and channels
-/

theorem applyMatrix (h : Siblings m m') (u : Mat R) :
    Alike Siblings (m.applyMatrix qubits u) (m'.applyMatrix qubits u) := by
  unfold Machine.applyMatrix
  rw [h.requireLocal_eq]
  apply Alike.after
  intro dim _
  split
  · exact h.applyDiagonal u.entries
  · split
    · apply Alike.after
      intro size _
      exact .error _
    · apply Alike.after
      intro _ _
      exact h.update fun hst => Store.applyUnitary_alike hst u.columns

theorem applySuperop (h : Siblings m m') (map : Mat R) :
    Alike Siblings (m.applySuperop qubits map) (m'.applySuperop qubits map) := by
  unfold Machine.applySuperop
  rw [h.requireLocal_eq]
  apply Alike.after
  intro dim _
  split
  · apply Alike.after
    intro size _
    exact .error _
  · apply Alike.after
    intro _ _
    exact h.update fun hst => Store.applySuperop_alike hst map.columns

theorem applyKraus (h : Siblings m m') (operators : List (Mat R)) :
    Alike Siblings (m.applyKraus qubits operators) (m'.applyKraus qubits operators) := by
  unfold Machine.applyKraus
  split
  · exact .error _
  · apply Alike.after
    intro dim _
    split
    · apply Alike.after
      intro size _
      exact .error _
    · apply Alike.after
      intro map _
      exact h.applySuperop map

theorem applyReset (h : Siblings m m') :
    Alike Siblings (m.applyReset qubits) (m'.applyReset qubits) := by
  unfold Machine.applyReset
  rw [h.requireLocal_eq]
  apply Alike.after
  intro _ _
  exact h.update fun hst => Store.applyReset_alike hst

/-!
## Gates that act as they are
-/

theorem applyPhase (h : Siblings m m') (qubit : Nat) (factor : Amplitude R) :
    Alike Siblings (m.applyPhase qubit factor) (m'.applyPhase qubit factor) :=
  h.applyDiagonal _

theorem applyPauli (h : Siblings m m') :
    Alike Siblings (m.applyPauli op) (m'.applyPauli op) := by
  unfold Machine.applyPauli
  rw [h.stores.bothBits_eq]
  split
  · exact .error _
  · apply Alike.after
    intro bits _
    apply h.update
    intro n size s t hst
    exact Store.transform_alike hst fun _ _ hab => Kernel.pauli_alike _ _ _ hab

theorem applyLocal (h : Siblings m m') (op : Instruction R) (gate : Gate) :
    Alike Siblings (m.applyLocal op gate) (m'.applyLocal op gate) := by
  unfold Machine.applyLocal
  cases gate with
  | id =>
      exact .ok h
  | x =>
      dsimp only
      split
      · exact h.update fun hst => Store.applyFlip_alike hst
      · exact .error _
  | y =>
      dsimp only
      split
      · exact h.update fun hst => Store.applyFlipY_alike hst
      · exact .error _
  | z | s | sdg | t | tdg | u1 =>
      dsimp only
      split
      · exact h.applyPhase _ _
      · exact .error _
  | h | u2 | u3 | sx | sxdg | r | rx | ry | rxx | ryy | rzx | ecr =>
      exact h.applyMatrix _
  | rz | rzz =>
      exact h.applyDiagonal _
  | cx =>
      dsimp only
      split
      · exact h.update fun hst => Store.applyFlip_alike hst
      · exact .error _
  | cy =>
      dsimp only
      split
      · exact h.update fun hst => Store.applyFlipY_alike hst
      · exact .error _
  | cz | cp =>
      dsimp only
      split
      · exact h.update fun hst => Store.applyPhase_alike hst _
      · exact .error _
  | swap =>
      dsimp only
      split
      · exact h.update fun hst => Store.applySwap_alike hst _ _
      · exact .error _
  | ccx =>
      dsimp only
      split
      · exact h.update fun hst => Store.applyFlip_alike hst
      · exact .error _
  | pauli =>
      exact h.applyPauli

end Machine.Siblings

/-!
## What routing leaves of a gate
-/

/-- Whether a gate on so many qubits can be left when global controls are taken away. -/
def Gate.IsRemnant (gate : Gate) (count : Nat) : Prop :=
  match gate with
  | .x | .y => count = 1
  | .cx => count = 2
  | .z | .u1 => count ≤ 1
  | _ => False

structure Instruction.IsRemnant (op : Instruction R) (n : Nat) : Prop where
  gate : exists gate, Gate.ofName op.name = .ok gate ∧ gate.IsRemnant op.qubits.length
  lt_of_mem : forall q, q ∈ op.qubits -> q < n

theorem Gate.isRemnant_of_reducedGate {gate reduced : Gate} {removed count : Nat}
    (hpos : 0 < removed) (hremoved : removed ≤ gate.controlCount)
    (hwidth : forall n, gate.width = some n -> removed + count = n)
    (h : reducedGate gate removed = some reduced) : reduced.IsRemnant count := by
  cases gate with
  | cx | cy =>
      change removed ≤ 1 at hremoved
      have hcount := hwidth 2 rfl
      obtain rfl : removed = 1 := by omega
      cases h
      change count = 1
      omega
  | cz | cp =>
      change removed ≤ 2 at hremoved
      have hcount := hwidth 2 rfl
      have hcases : removed = 1 ∨ removed = 2 := by omega
      rcases hcases with rfl | rfl <;> cases h
      · change count ≤ 1
        omega
      · change count ≤ 1
        omega
  | ccx =>
      change removed ≤ 2 at hremoved
      have hcount := hwidth 3 rfl
      have hcases : removed = 1 ∨ removed = 2 := by omega
      rcases hcases with rfl | rfl <;> cases h
      · change count = 2
        omega
      · change count = 1
        omega
  | id | x | y | z | h | s | sdg | t | tdg | sx | sxdg | r | rx | ry | rz | u1 | u2 | u3 | swap
  | rxx | ryy | rzz | rzx | ecr | pauli =>
      exact absurd hpos (Nat.not_lt_of_le hremoved)

omit [Scalar R] in
theorem Instruction.isRemnant_of_controls {op : Instruction R} {gate reduced : Gate}
    {place : Place} {controls targets : List Nat} (hqubits : op.qubits = controls ++ targets)
    (hcontrols : controls.length ≤ gate.controlCount)
    (hwidth : forall n, gate.width = some n -> op.qubits.length = n)
    (htargets : targets.all place.isLocal = true)
    (hglobal : ¬op.qubits.all place.isLocal = true)
    (hreduced : reducedGate gate (place.globalOf controls).length = some reduced) :
    IsRemnant { op with name := reduced.name, qubits := place.localOf controls ++ targets }
      place.width := by
  have hsplit := place.length_localOf_add_length_globalOf controls
  have hknown : place.globalOf controls ≠ [] := by
    intro hnil
    apply hglobal
    rw [hqubits, List.all_append, htargets, Bool.and_true, List.all_eq_true]
    intro q hq
    have hlocal := List.filter_eq_nil_iff.mp hnil q hq
    simpa using hlocal
  refine ⟨⟨reduced, Gate.ofName_name reduced, ?_⟩, ?_⟩
  · apply Gate.isRemnant_of_reducedGate (List.length_pos_iff.mpr hknown) (by omega) _ hreduced
    intro n hn
    have hlen := hwidth n hn
    rw [hqubits, List.length_append] at hlen
    rw [List.length_append]
    omega
  · intro q hq
    rcases List.mem_append.mp hq with hq | hq
    · exact of_decide_eq_true (List.mem_filter.mp hq).2
    · exact of_decide_eq_true (List.all_eq_true.mp htargets q hq)

inductive Route.Similar (n : Nat) : Route R -> Route R -> Prop
  | direct : Similar n .direct .direct
  | sides {left : Instruction R} (hleft : left.IsRemnant n)
      (rowsHold columnsHold rowsHold' columnsHold' : Bool) :
      Similar n (.ofSides left rowsHold columnsHold) (.ofSides left rowsHold' columnsHold')

omit [Scalar R] in
/-- The place of a chunk decides only which sides a gate acts on. -/
theorem route_alike {op : Instruction R} {gate : Gate} (place : Place) (index : Nat)
    (hwidth : forall n, gate.width = some n -> op.qubits.length = n) :
    Alike (Route.Similar place.width) (route op gate place)
      (route op gate { place with index := index }) := by
  have hrefuse : forall qubits,
      (refuseGlobal op.name { place with index := index } qubits : Outcome (Route R)) =
        refuseGlobal op.name place qubits := fun _ => rfl
  have hrefused : forall qubits, Alike (Route.Similar place.width)
      (refuseGlobal op.name place qubits : Outcome (Route R))
      (refuseGlobal op.name place qubits) := fun _ => .error _
  unfold route
  rw [show ({ place with index := index } : Place).isSplit = place.isSplit from rfl,
    show ({ place with index := index } : Place).isLocal = place.isLocal from rfl]
  simp only [hrefuse]
  split
  · exact .ok .direct
  · next hglobal =>
      split
      · split
        · exact .ok .direct
        · exact hrefused _
      · split
        · exact hrefused _
        · next htargets =>
            split
            · exact .error _
            · split
              · exact hrefused _
              · next reduced hreduced =>
                  apply (place.rowBits_alike index).bind
                  intro rowBits rowBits' _
                  apply (place.columnBits_alike index).bind
                  intro columnBits columnBits' _
                  refine .ok (.sides ?_ _ _ _ _)
                  refine Instruction.isRemnant_of_controls
                    (List.take_append_drop _ op.qubits).symm ?_ hwidth (by simpa using htargets)
                    ?_ hreduced
                  · rw [List.length_take]
                    exact Nat.le_trans (Nat.min_le_left _ _) (Nat.min_le_left _ _)
                  · intro hall
                    apply hglobal
                    rw [hall, Bool.or_true]

/-!
## No side fails
-/

def Machine.Refilled (m : Machine R) (n : Nat) (m' : Machine R) : Prop :=
  exists s : Store R, s.HasShape n (twoPow (2 * n)) ∧ m' = { m with store := s }

namespace Machine

variable {m : Machine R} {n : Nat} {left op : Instruction R} {gate : Gate}

omit [Scalar R] in
theorem gives_update {f : Store R -> Outcome (Store R)}
    (h : Gives (Store.HasShape n (twoPow (2 * n))) (f m.store)) :
    Gives (m.Refilled n) (m.update f) := by
  apply h.bind
  intro s hs
  exact .ok ⟨s, hs, rfl⟩

theorem gives_applyPhase (hstore : m.store.HasShape n (twoPow (2 * n)))
    (hn : 2 * n < wordBits) {q : Nat} (hq : q < n) (factor : Amplitude R) :
    Gives (m.Refilled n) (m.applyPhase q factor) := by
  have hsize : (#[1, factor] : Buffer R).size = twoPow 1 := rfl
  have hlocal : (!m.isSplit || [q].all m.place.isLocal) = true := by
    have hq' : m.place.isLocal q = true := by
      change decide (q < m.store.qubits) = true
      rw [hstore.qubits]
      exact decide_eq_true hq
    rw [List.all_cons, hq', Bool.true_and, List.all_nil, Bool.or_true]
  unfold applyPhase applyDiagonal
  rw [List.length_singleton, checkedShift_of_lt (show 1 < wordBits by decide), ok_bind,
    if_neg (not_not.mpr hsize), if_pos hlocal]
  apply gives_update
  exact hstore.gives_applyDiagonalUnitary hn (by simpa using hq)
    (by change 2 ≤ wordBits; decide) rfl

theorem gives_applyLocal (hstore : m.store.HasShape n (twoPow (2 * n))) (hn : 2 * n < wordBits)
    (hgate : gate.IsRemnant op.qubits.length) (hqubits : forall q, q ∈ op.qubits -> q < n)
    (hne : op.qubits ≠ []) : Gives (m.Refilled n) (m.applyLocal op gate) := by
  unfold applyLocal
  cases gate with
  | x =>
      rcases List.length_eq_one_iff.mp hgate with ⟨q, hq⟩
      rw [hq] at hqubits ⊢
      exact gives_update (hstore.gives_applyFlip hn hqubits)
  | y =>
      rcases List.length_eq_one_iff.mp hgate with ⟨q, hq⟩
      rw [hq] at hqubits ⊢
      exact gives_update (hstore.gives_applyFlipY hn hqubits)
  | cx =>
      rcases List.length_eq_two.mp hgate with ⟨p, q, hpq⟩
      rw [hpq] at hqubits ⊢
      exact gives_update (hstore.gives_applyFlip hn hqubits)
  | z | u1 =>
      have hone : op.qubits.length = 1 :=
        Nat.le_antisymm hgate (List.length_pos_iff.mpr hne)
      rcases List.length_eq_one_iff.mp hone with ⟨q, hq⟩
      rw [hq] at hqubits ⊢
      exact gives_applyPhase hstore hn (hqubits q List.mem_cons_self) _
  | id | h | s | sdg | t | tdg | sx | sxdg | r | rx | ry | rz | u2 | u3 | cy | cz | cp | swap
  | rxx | ryy | rzz | rzx | ecr | ccx | pauli =>
      cases hgate

theorem gives_applyOneSide (hstore : m.store.HasShape n (twoPow (2 * n)))
    (hn : 2 * n < wordBits) (hleft : left.IsRemnant n) (onColumns : Bool) :
    Gives (m.Refilled n) (m.applyOneSide left onColumns) := by
  rcases hleft with ⟨⟨gate, hname, hgate⟩, hqubits⟩
  have hshift : shiftPositions (if onColumns then m.store.qubits else 0) left.qubits =
      .ok (sideBits onColumns n left.qubits) := by
    rw [hstore.qubits]
    have hside := side_le onColumns n
    have hshift : side onColumns n < wordBits := by omega
    exact shiftPositions_eq_ok hshift (lt_wordBits_of_lt hn hqubits)
  have hbits : forall p, p ∈ sideBits onColumns n left.qubits -> p < 2 * n :=
    lt_of_mem_sideBits hqubits
  unfold applyOneSide
  rw [hname, ok_bind, hshift, ok_bind]
  cases gate with
  | x | cx =>
      exact gives_update (hstore.gives_transform
        (Kernel.gives_flip hstore.size_data (Nat.le_of_lt hn) hbits))
  | y =>
      exact gives_update (hstore.gives_transform
        (Kernel.gives_flipY onColumns hstore.size_data (Nat.le_of_lt hn) hbits))
  | z | u1 =>
      exact gives_update (hstore.gives_transform
        (Kernel.gives_phase _ hstore.size_data (sideBits_lt_wordBits hn hqubits)))
  | id | h | s | sdg | t | tdg | sx | sxdg | r | rx | ry | rz | u2 | u3 | cy | cz | cp | swap
  | rxx | ryy | rzz | rzx | ecr | ccx | pauli =>
      cases hgate

theorem gives_applyRouted {rowsHold columnsHold : Bool}
    (hstore : m.store.HasShape n (twoPow (2 * n))) (hn : 2 * n < wordBits)
    (hstring : diagonalString? op gate = none) (hleft : left.IsRemnant n)
    (hroute : route op gate m.place = .ok (.ofSides left rowsHold columnsHold)) :
    Gives (m.Refilled n) (m.applyRouted op gate) := by
  have hskip : Gives (m.Refilled n) (.ok m) := .ok ⟨m.store, hstore, rfl⟩
  unfold applyRouted
  rw [hstring]
  dsimp only
  rw [hroute, ok_bind]
  cases rowsHold with
  | false =>
      cases columnsHold with
      | false =>
          exact hskip
      | true =>
          exact gives_applyOneSide hstore hn hleft true
  | true =>
      cases columnsHold with
      | false =>
          exact gives_applyOneSide hstore hn hleft false
      | true =>
          unfold Route.ofSides
          dsimp only
          by_cases hempty : left.qubits.isEmpty = true
          · rw [if_pos hempty]
            exact hskip
          · have hne : left.qubits ≠ [] := fun hnil => hempty (by rw [hnil]; rfl)
            rcases hleft.gate with ⟨reduced, hname, hreduced⟩
            rw [if_neg hempty]
            dsimp only
            rw [hname, ok_bind]
            exact gives_applyLocal hstore hn hreduced hleft.lt_of_mem hne

end Machine

/-!
## Gates
-/

namespace Machine.Siblings

variable {m m' : Machine R} {op : Instruction R} {gate : Gate}

omit [Scalar R] in
theorem alike_of_gives {x y : Outcome (Machine R)} (h : Siblings m m')
    (hx : Gives (m.Refilled m.store.qubits) x) (hy : Gives (m'.Refilled m.store.qubits) y) :
    Alike Siblings x y := by
  apply (Alike.of_gives hx hy).mono
  rintro a b ⟨⟨s, hs, rfl⟩, t, ht, rfl⟩
  exact h.withStores ⟨hs, ht⟩

theorem applyRouted (h : Siblings m m')
    (hwidth : forall n, gate.width = some n -> op.qubits.length = n) :
    Alike Siblings (m.applyRouted op gate) (m'.applyRouted op gate) := by
  cases hstring : diagonalString? op gate with
  | some string =>
      unfold Machine.applyRouted
      rw [hstring]
      apply Alike.after
      intro entries _
      exact h.applyDiagonal entries
  | none =>
      have hroutes := route_alike m.place m'.store.chunk hwidth
      rw [← h.place_eq] at hroutes
      rcases hroutes.cases with ⟨r, r', hleft, hright, hsimilar⟩ | ⟨fault, hleft, hright⟩
      · cases hsimilar with
        | direct =>
            unfold Machine.applyRouted
            rw [hstring]
            dsimp only
            rw [hleft, hright, ok_bind, ok_bind]
            exact h.applyLocal op gate
        | sides hremnant =>
            exact h.alike_of_gives (gives_applyRouted h.stores.1 h.word hstring hremnant hleft)
              (gives_applyRouted h.stores.2 h.word hstring hremnant hright)
      · unfold Machine.applyRouted
        rw [hstring]
        dsimp only
        rw [hleft, hright]
        exact .error fault

theorem applyGate (h : Siblings m m') :
    Alike Siblings (m.applyGate op) (m'.applyGate op) := by
  unfold Machine.applyGate
  apply Alike.after
  intro gate _
  apply Alike.after
  intro _ hcheck
  rw [h.isSplit, h.isSplit', if_pos rfl, if_pos rfl]
  exact h.applyRouted (checkGate_eq_ok_iff.mp hcheck).1

end Machine.Siblings

end MixedState
