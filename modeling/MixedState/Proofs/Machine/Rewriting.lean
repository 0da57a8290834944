import MixedState.Machine.Measurement
import MixedState.Proofs.Density.Sizes

/-!
# Operators rewrite entries

An operator that succeeds writes other entries to the buffer, as many as there were, and
leaves everything else of a machine.
-/

namespace MixedState

variable {R : Type}

def Store.Rewrites (s t : Store R) : Prop :=
  exists data : Buffer R, data.size = s.data.size ∧ t = { s with data := data }

def Machine.Rewrites (m m' : Machine R) : Prop :=
  exists store : Store R, m.store.Rewrites store ∧ m' = { m with store := store }

/-!
## Stores
-/

namespace Store

variable {s t u : Store R} {qubits : List Nat}

theorem Rewrites.trans (hst : s.Rewrites t) (htu : t.Rewrites u) : s.Rewrites u := by
  rcases hst with ⟨data, hdata, rfl⟩
  rcases htu with ⟨data', hdata', rfl⟩
  exact ⟨data', hdata'.trans hdata, rfl⟩

theorem ensures_transform {f : Buffer R -> Outcome (Buffer R)}
    (hkernel : forall b b', SameSize b.size b b' -> Alike (SameSize b.size) (f b) (f b')) :
    Ensures s.Rewrites (s.transform f) := by
  have hsize : Ensures (fun b => b.size = s.data.size) (f s.data) :=
    (hkernel s.data s.data ⟨rfl, rfl⟩).ensures
  apply hsize.bind
  intro data hdata
  exact .ok ⟨data, hdata, rfl⟩

theorem ensures_transform_twice {α : Type} {x : Outcome α} {f : Buffer R -> Outcome (Buffer R)}
    {g : α -> Buffer R -> Outcome (Buffer R)}
    (hf : forall b b', SameSize b.size b b' -> Alike (SameSize b.size) (f b) (f b'))
    (hg : forall a b b', SameSize b.size b b' -> Alike (SameSize b.size) (g a b) (g a b')) :
    Ensures s.Rewrites (x >>= fun a => s.transform f >>= fun t => t.transform (g a)) := by
  apply Ensures.after
  intro a
  apply (ensures_transform hf).bind
  intro t ht
  exact (ensures_transform (hg a)).mono fun _ => ht.trans

variable [Scalar R]

theorem ensures_applyUnitary (columns : Buffer R) :
    Ensures s.Rewrites (s.applyUnitary qubits columns) := by
  apply (ensures_transform fun _ _ => Kernel.dense_alike _ _).bind
  intro t ht
  apply Ensures.after
  intro bits
  exact (ensures_transform fun _ _ => Kernel.dense_alike _ _).mono fun _ => ht.trans

theorem ensures_applyDiagonalUnitary (entries : Buffer R) :
    Ensures s.Rewrites (s.applyDiagonalUnitary qubits entries) :=
  Ensures.after fun _ => ensures_transform fun _ _ => Kernel.diagonal_alike _ ⟨rfl, rfl⟩

theorem ensures_applySuperop (columns : Buffer R) :
    Ensures s.Rewrites (s.applySuperop qubits columns) :=
  Ensures.after fun _ => ensures_transform fun _ _ => Kernel.dense_alike _ _

theorem ensures_applyReset : Ensures s.Rewrites (s.applyReset qubits) :=
  Ensures.after fun columns => ensures_applySuperop columns

theorem ensures_applyFlip : Ensures s.Rewrites (s.applyFlip qubits) :=
  ensures_transform_twice (fun _ _ => Kernel.flip_alike _) fun _ _ _ => Kernel.flip_alike _

theorem ensures_applyFlipY : Ensures s.Rewrites (s.applyFlipY qubits) :=
  ensures_transform_twice (fun _ _ => Kernel.flipY_alike _ _)
    fun _ _ _ => Kernel.flipY_alike _ _

theorem ensures_applyPhase (factor : Amplitude R) :
    Ensures s.Rewrites (s.applyPhase qubits factor) :=
  ensures_transform_twice (fun _ _ => Kernel.phase_alike _ _)
    fun _ _ _ => Kernel.phase_alike _ _

theorem ensures_applySwap (p q : Nat) : Ensures s.Rewrites (s.applySwap p q) := by
  apply (ensures_transform fun _ _ => Kernel.exchange_alike _ _).bind
  intro t ht
  apply Ensures.after
  intro columns
  split
  · exact (ensures_transform fun _ _ => Kernel.exchange_alike _ _).mono fun _ => ht.trans
  · exact .ok ht

end Store

/-!
## Machines
-/

namespace Machine

variable {m : Machine R} {op : Instruction R}

theorem Rewrites.refl (m : Machine R) : m.Rewrites m :=
  ⟨m.store, ⟨m.store.data, rfl, rfl⟩, rfl⟩

theorem Rewrites.classical_eq {m' : Machine R} (h : m.Rewrites m') :
    m'.classical = m.classical := by
  rcases h with ⟨store, _, rfl⟩
  rfl

theorem ensures_update {f : Store R -> Outcome (Store R)}
    (h : forall s : Store R, Ensures s.Rewrites (f s)) : Ensures m.Rewrites (m.update f) := by
  apply (h m.store).bind
  intro store hstore
  exact .ok ⟨store, hstore, rfl⟩

variable [Scalar R]

theorem ensures_applyDiagonal (qubits : List Nat) (entries : Buffer R) :
    Ensures m.Rewrites (m.applyDiagonal qubits entries) := by
  apply Ensures.after
  intro dim
  split
  · exact .error _
  · split
    · exact ensures_update fun _ => Store.ensures_applyDiagonalUnitary entries
    · apply Ensures.after
      intro rowBits
      apply Ensures.after
      rintro ⟨inside, rows⟩
      apply Ensures.after
      intro columnBits
      apply Ensures.after
      rintro ⟨_, columns⟩
      apply Ensures.after
      intro bits
      exact ensures_update fun _ => Store.ensures_transform fun _ _ =>
        Kernel.diagonal_alike _ ⟨rfl, rfl⟩

theorem ensures_applyMatrix (qubits : List Nat) (u : Mat R) :
    Ensures m.Rewrites (m.applyMatrix qubits u) := by
  apply Ensures.after
  intro dim
  split
  · exact ensures_applyDiagonal qubits u.entries
  · split
    · exact Ensures.after fun _ => Ensures.error _
    · exact Ensures.after fun _ => ensures_update fun _ => Store.ensures_applyUnitary u.columns

theorem ensures_applySuperop (qubits : List Nat) (map : Mat R) :
    Ensures m.Rewrites (m.applySuperop qubits map) := by
  apply Ensures.after
  intro dim
  split
  · exact Ensures.after fun _ => Ensures.error _
  · exact Ensures.after fun _ => ensures_update fun _ => Store.ensures_applySuperop map.columns

theorem ensures_applyKraus (qubits : List Nat) (operators : List (Mat R)) :
    Ensures m.Rewrites (m.applyKraus qubits operators) := by
  unfold applyKraus
  split
  · exact .error _
  · apply Ensures.after
    intro dim
    split
    · exact Ensures.after fun _ => Ensures.error _
    · exact Ensures.after fun map => ensures_applySuperop qubits map

theorem ensures_applyReset (qubits : List Nat) : Ensures m.Rewrites (m.applyReset qubits) :=
  Ensures.after fun _ => ensures_update fun _ => Store.ensures_applyReset

theorem ensures_applyPhase (q : Nat) (factor : Amplitude R) :
    Ensures m.Rewrites (m.applyPhase q factor) :=
  ensures_applyDiagonal _ _

theorem ensures_applyPauli : Ensures m.Rewrites (m.applyPauli op) := by
  unfold applyPauli
  split
  · exact .error _
  · exact Ensures.after fun _ => ensures_update fun _ => Store.ensures_transform fun _ _ =>
      Kernel.pauli_alike _ _ _

theorem ensures_applyLocal (op : Instruction R) (gate : Gate) :
    Ensures m.Rewrites (m.applyLocal op gate) := by
  unfold applyLocal
  cases gate with
  | id =>
      exact .ok (Rewrites.refl m)
  | x | cx | ccx =>
      dsimp only
      split
      · exact ensures_update fun _ => Store.ensures_applyFlip
      · exact .error _
  | y | cy =>
      dsimp only
      split
      · exact ensures_update fun _ => Store.ensures_applyFlipY
      · exact .error _
  | z | s | sdg | t | tdg | u1 =>
      dsimp only
      split
      · exact ensures_applyPhase _ _
      · exact .error _
  | cz | cp =>
      dsimp only
      split
      · exact ensures_update fun _ => Store.ensures_applyPhase _
      · exact .error _
  | swap =>
      dsimp only
      split
      · exact ensures_update fun _ => Store.ensures_applySwap _ _
      · exact .error _
  | h | u2 | u3 | sx | sxdg | r | rx | ry | rxx | ryy | rzx | ecr =>
      exact ensures_applyMatrix _ _
  | rz | rzz =>
      exact ensures_applyDiagonal _ _
  | pauli =>
      exact ensures_applyPauli

theorem ensures_applyOneSide (op : Instruction R) (onColumns : Bool) :
    Ensures m.Rewrites (m.applyOneSide op onColumns) := by
  apply Ensures.after
  intro gate
  apply Ensures.after
  intro bits
  cases gate with
  | x | cx | ccx =>
      exact ensures_update fun _ => Store.ensures_transform fun _ _ => Kernel.flip_alike _
  | y | cy =>
      exact ensures_update fun _ => Store.ensures_transform fun _ _ => Kernel.flipY_alike _ _
  | z | cz | u1 | cp =>
      exact ensures_update fun _ => Store.ensures_transform fun _ _ => Kernel.phase_alike _ _
  | id | h | s | sdg | t | tdg | sx | sxdg | r | rx | ry | rz | u2 | u3 | swap | rxx | ryy
  | rzz | rzx | ecr | pauli =>
      exact .error _

theorem ensures_applyRouted (op : Instruction R) (gate : Gate) :
    Ensures m.Rewrites (m.applyRouted op gate) := by
  unfold applyRouted
  split
  · exact Ensures.after fun _ => ensures_applyDiagonal _ _
  · apply Ensures.after
    intro taken
    cases taken with
    | direct =>
        exact ensures_applyLocal op gate
    | skip =>
        exact .ok (Rewrites.refl m)
    | both reduced =>
        exact Ensures.after fun _ => ensures_applyLocal reduced _
    | rows reduced =>
        exact ensures_applyOneSide reduced false
    | columns reduced =>
        exact ensures_applyOneSide reduced true

theorem ensures_applyGate (op : Instruction R) : Ensures m.Rewrites (m.applyGate op) := by
  apply Ensures.after
  intro gate
  apply Ensures.after
  intro _
  split
  · exact ensures_applyRouted op gate
  · exact ensures_applyLocal op gate

theorem ensures_project (qubits : List Nat) (outcome : Nat) (probability : R) :
    Ensures m.Rewrites (m.project qubits outcome probability) :=
  Ensures.after fun _ => Ensures.after fun _ => Ensures.after fun _ => ensures_applyDiagonal _ _

end Machine

end MixedState
