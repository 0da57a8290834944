import MixedState.Proofs.Exact
import MixedState.Proofs.Density.Empty
import MixedState.Proofs.Density.Kraus
import MixedState.Proofs.Density.Moves
import MixedState.Proofs.Machine.Operators
import MixedState.Proofs.Machine.Unitary

/-!
# Operators are local

On a machine with its whole register, an operator on `k` qubits is one superoperator on
`k` qubits, or one fault.  Neither depends on the register, on its size or on where the
qubits lie in it.  Unitaries, complete channels and resets are channels.
-/

namespace MixedState

open MixedState.Basis

namespace Machine

/-- The machine has all of its `n` qubits in its store, from which the entries may have
been taken. -/
structure IsRegister (n : Nat) (m : Machine ℝ) : Prop where
  width : m.width = n
  qubits : m.store.qubits = n
  size : m.store.data.size = twoPow (2 * n) ∨ m.store.data.size = 0

structure Hosts (n : Nat) (m : Machine ℝ) (qs : List Nat) : Prop extends IsRegister n m where
  small : 4 * n < wordBits
  nodup : qs.Nodup
  inside : forall q, q ∈ qs -> q < n

noncomputable def transformed (m : Machine ℝ) (qs : List Nat) (u : Entries) : Machine ℝ :=
  m.withData (Buffer.tabulate m.store.data.size
    (act (bothSides m.width qs) u m.store.data.entry))

/-- Wherever the `k` qubits lie, the operator fails alike or is one superoperator; if what
makes it `physical` holds, this is a channel. -/
def IsLocal (k : Nat) (physical : Prop)
    (f : Machine ℝ -> List Nat -> Outcome (Machine ℝ)) : Prop :=
  exists u : Outcome Entries,
    (physical -> forall v, u = .ok v -> Kernel.IsChannel (twoPow k) v) ∧
      forall n m qs, Hosts n m qs -> qs.length = k -> f m qs = u.map (m.transformed qs)

variable {n k : Nat} {m : Machine ℝ} {qs : List Nat} {physical : Prop}
  {f g : Machine ℝ -> List Nat -> Outcome (Machine ℝ)}

/-!
## Registers
-/

theorem IsRegister.width_eq (h : m.IsRegister n) : m.width = m.store.qubits :=
  h.width.trans h.qubits.symm

theorem IsRegister.whole (h : m.IsRegister n) : m.isSplit = false :=
  decide_eq_false (by
    change ¬m.store.qubits < m.width
    rw [h.width, h.qubits]
    exact Nat.lt_irrefl n)

theorem IsRegister.qubits_lt (h : m.IsRegister n) (hn : 4 * n < wordBits) :
    m.store.qubits < wordBits := by
  have hqubits := h.qubits
  omega

theorem IsRegister.transformed (h : m.IsRegister n) (qs : List Nat) (u : Entries) :
    (m.transformed qs u).IsRegister n where
  width := h.width
  qubits := h.qubits
  size := by
    change (Buffer.tabulate _ _).size = _ ∨ (Buffer.tabulate _ _).size = _
    rw [Buffer.size_tabulate]
    exact h.size

theorem transformed_of_empty (hempty : m.store.data.size = 0) (u : Entries) :
    m.transformed qs u = m := by
  have hdata : Buffer.tabulate m.store.data.size
      (act (bothSides m.width qs) u m.store.data.entry) = m.store.data := by
    apply Buffer.ext_entry (Buffer.size_tabulate _ _)
    intro i hi
    rw [Buffer.size_tabulate, hempty] at hi
    omega
  unfold transformed
  rw [hdata]
  rfl

theorem IsRegister.toEntries_transformed (h : m.IsRegister n)
    (hfull : m.store.data.size = twoPow (2 * n)) (u : Entries) {r c : Nat} (hr : r < twoPow n)
    (hc : c < twoPow n) :
    (m.transformed qs u).store.data.toEntries n r c =
      act (bothSides n qs) u m.store.data.entry (cell n r c) := by
  unfold Machine.transformed
  rw [h.width, hfull]
  exact Buffer.toEntries_tabulate _ hr hc

namespace Hosts

theorem reaches (h : m.Hosts n qs) : m.Reaches qs :=
  Or.inl h.whole

theorem length_le (h : m.Hosts n qs) : qs.length ≤ n :=
  length_le_of_nodup h.nodup h.inside

theorem qubits_lt (h : m.Hosts n qs) : m.store.qubits < wordBits :=
  h.toIsRegister.qubits_lt h.small

theorem twice_lt (h : m.Hosts n qs) : 2 * n < wordBits := by
  have hsmall := h.small
  omega

theorem lt_wordBits (h : m.Hosts n qs) : forall q, q ∈ qs -> q < wordBits :=
  lt_wordBits_of_lt h.twice_lt h.inside

theorem length_lt (h : m.Hosts n qs) : qs.length < wordBits := by
  have hle := h.length_le
  have htwice := h.twice_lt
  omega

theorem twice_length_lt (h : m.Hosts n qs) : 2 * qs.length < wordBits := by
  have hle := h.length_le
  have htwice := h.twice_lt
  omega

theorem bothSides_lt (h : m.Hosts n qs) : (bothSides n qs).length < 32 := by
  have hle := h.length_le
  have hsmall := h.small
  unfold wordBits at hsmall
  rw [length_bothSides]
  omega

theorem sides_lt (h : m.Hosts n qs) : 2 * qs.length < 59 := by
  have hlt := h.bothSides_lt
  rw [length_bothSides] at hlt
  omega

theorem length_lt_half (h : m.Hosts n qs) : qs.length < 32 := by
  have hlt := h.bothSides_lt
  rw [length_bothSides] at hlt
  omega

end Hosts

/-!
## Ways to be local
-/

theorem isLocal_error (fault : Fault) : IsLocal k physical fun _ _ => .error fault :=
  ⟨.error fault, fun _ _ h => (nomatch h), fun _ _ _ _ _ => rfl⟩

theorem IsLocal.congr (h : IsLocal k physical g)
    (hfg : forall n m qs, Hosts n m qs -> qs.length = k -> f m qs = g m qs) :
    IsLocal k physical f := by
  rcases h with ⟨u, hphysical, hu⟩
  refine ⟨u, hphysical, ?_⟩
  intro n m qs hosts hlen
  rw [hfg n m qs hosts hlen]
  exact hu n m qs hosts hlen

theorem IsLocal.mono {physical' : Prop} (h : IsLocal k physical f) (himp : physical' -> physical) :
    IsLocal k physical' f := by
  rcases h with ⟨u, hphysical, hu⟩
  exact ⟨u, fun hp => hphysical (himp hp), hu⟩

theorem isLocal_bind {α : Type} (x : Outcome α)
    (step : α -> Machine ℝ -> List Nat -> Outcome (Machine ℝ))
    (h : forall a, x = .ok a -> IsLocal k physical (step a)) :
    IsLocal k physical fun m qs => x >>= fun a => step a m qs := by
  cases x with
  | error fault =>
      exact isLocal_error fault
  | ok a =>
      exact h a rfl

theorem isLocal_wrongSize (what : String) (d got : Nat) :
    IsLocal k physical fun _ _ =>
      (checkedMul d d >>= fun count => refuse (.elementCount what count got)) :=
  isLocal_bind (checkedMul d d) (fun count _ _ => refuse (.elementCount what count got))
    fun _ _ => isLocal_error _

theorem isLocal_onData {u : Entries}
    (kernel : Nat -> List Nat -> Buffer ℝ -> Outcome (Buffer ℝ))
    (hphysical : physical -> Kernel.IsChannel (twoPow k) u)
    (hkernel : forall n m qs, Hosts n m qs -> qs.length = k ->
      Kernel.ActsAs n qs u (kernel n qs) ∧ kernel n qs #[] = .ok #[]) :
    IsLocal k physical fun m qs => m.onData (kernel m.store.qubits qs) := by
  refine ⟨.ok u, ?_, ?_⟩
  · intro hp v hv
    cases hv
    exact hphysical hp
  · intro n m qs hosts hlen
    have hb : kernel n qs m.store.data = .ok (Buffer.tabulate m.store.data.size
        (act (bothSides n qs) u m.store.data.entry)) := by
      rcases hosts.size with hfull | hempty
      · rw [hfull]
        exact (hkernel n m qs hosts hlen).1 m.store.data hfull
      · rw [Array.eq_empty_of_size_eq_zero hempty]
        exact (hkernel n m qs hosts hlen).2
    change m.onData (kernel m.store.qubits qs) = .ok (m.transformed qs u)
    unfold transformed
    rw [hosts.qubits, onData_of_eq_ok hb, hosts.width]

theorem isLocal_of_le (hk : wordBits ≤ 2 * k) : IsLocal k physical f := by
  refine (isLocal_error .crash).congr ?_
  intro n m qs hosts hlen
  have hlt := hosts.twice_length_lt
  omega

/-!
## Operators
-/

theorem isLocal_applyDiagonal (k : Nat) (entries : Buffer ℝ) :
    IsLocal k (forall a, a ∈ entries -> a.IsPhase) fun m qs => m.applyDiagonal qs entries := by
  by_cases hsize : entries.size = twoPow k
  · refine (isLocal_onData (fun n qs => Kernel.diagonalUnitary n qs entries)
      (u := Kernel.superopOf (twoPow k) (monomial id entries.entry)) ?_ ?_).congr ?_
    · intro hphases
      refine Kernel.isChannel_superopOf (isComplete_monomial (fun _ hx => hx) (fun _ _ => rfl) ?_)
      intro x hx
      have hlt : x < entries.size := by
        rw [hsize]
        exact hx
      have hentry : entries.entry x = entries[x] := by
        simp [Buffer.entry, Array.getD, hlt]
      rw [hentry]
      exact hphases _ (Array.getElem_mem hlt)
    · rintro n m qs hosts rfl
      exact ⟨Kernel.actsAs_diagonalUnitary hosts.twice_lt hosts.nodup hosts.inside hsize,
        Kernel.diagonalUnitary_empty entries⟩
    · rintro n m qs hosts rfl
      exact applyDiagonal_of_reaches hosts.reaches hosts.qubits_lt hosts.lt_wordBits
        hosts.length_lt hsize
  · refine (isLocal_error (.refused (.elementCount "diagonal_matrix" (twoPow k)
      entries.size))).congr ?_
    rintro n m qs hosts rfl
    unfold applyDiagonal
    rw [checkedShift_of_lt hosts.length_lt, ok_bind, if_pos hsize]
    rfl

theorem ofColumns_columns {d : Nat} {u : Mat ℝ} (hrows : u.rows = d) (hcols : u.cols = d)
    {r c : Nat} (hr : r < d) (hc : c < d) : Kernel.ofColumns d u.columns r c = u.entry r c := by
  have hentry := Mat.entry_columns (u := u) (hrows ▸ hr) (hcols ▸ hc)
  rw [hrows] at hentry
  exact hentry

theorem isLocal_applyMatrix (k : Nat) (u : Mat ℝ) :
    IsLocal k u.ActsUnitary fun m qs => m.applyMatrix qs u := by
  by_cases hrow : u.rows = 1
  · refine ((isLocal_applyDiagonal k u.entries).mono fun hu => hu.isPhase hrow).congr ?_
    intro n m qs hosts _
    unfold applyMatrix
    rw [checkedShift_of_lt hosts.length_lt, ok_bind, if_pos hrow]
  · by_cases hshape : u.hasShape (twoPow k) (twoPow k) = true
    · rcases Mat.hasShape_iff.mp hshape with ⟨hrows, hcols⟩
      refine (isLocal_onData (fun n qs => Kernel.unitary n qs u.columns)
        (u := Kernel.superopOf (twoPow k) (Kernel.ofColumns (twoPow k) u.columns)) ?_ ?_).congr ?_
      · intro hu
        have hunitary : u.IsUnitary := hu.resolve_right fun hsingle => hrow hsingle.1
        refine Kernel.isChannel_superopOf ?_
        intro a b ha hb
        rw [List.map_singleton, List.sum_singleton,
          ← hunitary a b (hcols ▸ ha) (hcols ▸ hb), hrows]
        apply Finset.sum_congr rfl
        intro r hr
        have hr' := Finset.mem_range.mp hr
        rw [ofColumns_columns hrows hcols hr' ha, ofColumns_columns hrows hcols hr' hb]
      · rintro n m qs hosts rfl
        exact ⟨Kernel.actsAs_unitary hosts.twice_lt hosts.nodup hosts.inside
            (by rw [Mat.size_columns, hrows, hcols]),
          Kernel.unitary_empty u.columns hosts.length_lt_half⟩
      · rintro n m qs hosts rfl
        exact applyMatrix_of_reaches hrow hosts.reaches hosts.qubits_lt hosts.lt_wordBits
          hosts.length_lt hrows hcols
    · refine (isLocal_wrongSize "matrix" (twoPow k) u.size).congr ?_
      rintro n m qs hosts rfl
      rw [Bool.not_eq_true] at hshape
      unfold applyMatrix
      rw [checkedShift_of_lt hosts.length_lt, ok_bind, if_neg hrow, hshape]
      rfl

theorem isLocal_applySuperop (k : Nat) (map : Mat ℝ) :
    IsLocal k (Kernel.IsChannel (twoPow k) (Kernel.ofColumns (twoPow (2 * k)) map.columns))
      fun m qs => m.applySuperop qs map := by
  by_cases hshape : map.hasShape (twoPow (2 * k)) (twoPow (2 * k)) = true
  · rcases Mat.hasShape_iff.mp hshape with ⟨hrows, hcols⟩
    refine (isLocal_onData (fun n qs => Kernel.dense (bothSides n qs) map.columns)
      id ?_).congr ?_
    · rintro n m qs hosts rfl
      exact ⟨Kernel.actsAs_dense hosts.twice_lt hosts.nodup hosts.inside hosts.sides_lt
          (by rw [Mat.size_columns, hrows, hcols]),
        Kernel.dense_empty map.columns hosts.bothSides_lt⟩
    · rintro n m qs hosts rfl
      exact applySuperop_of_reaches hosts.reaches hosts.qubits_lt hosts.lt_wordBits
        hosts.twice_length_lt hrows hcols
  · refine (isLocal_wrongSize "superop" (twoPow (2 * k)) map.size).congr ?_
    rintro n m qs hosts rfl
    rw [Bool.not_eq_true] at hshape
    unfold applySuperop
    rw [checkedShift_of_lt hosts.twice_length_lt, ok_bind, hshape]
    rfl

theorem isLocal_applyKraus (k : Nat) (operators : List (Mat ℝ)) :
    IsLocal k (IsComplete (twoPow k) (operators.map Mat.entry))
      fun m qs => m.applyKraus qs operators := by
  by_cases hempty : operators.isEmpty = true
  · refine (isLocal_error (.refused (.missing "kraus" .krausOperators))).congr ?_
    intro n m qs _ _
    unfold applyKraus
    rw [if_pos hempty]
    rfl
  · cases hfind : operators.find? fun u => !u.hasShape (twoPow k) (twoPow k) with
    | some u =>
        refine (isLocal_wrongSize "kraus" (twoPow k) u.size).congr ?_
        rintro n m qs hosts rfl
        unfold applyKraus
        rw [if_neg hempty, checkedShift_of_lt hosts.length_lt, ok_bind, hfind]
    | none =>
        refine (isLocal_bind (krausMap operators)
          (fun map m qs => m.applySuperop qs map) ?_).congr ?_
        · intro map hmap
          have hshapes : forall u, u ∈ operators -> u.rows = twoPow k ∧ u.cols = twoPow k := by
            intro u hu
            have hshape := List.find?_eq_none.mp hfind u hu
            exact Mat.hasShape_iff.mp (by simpa using hshape)
          rcases isSuperop_krausMap (by simpa using hempty) hshapes hmap with ⟨_, _, hsuperop⟩
          rw [← twoPow_two_mul] at hsuperop
          exact (isLocal_applySuperop k map).mono fun hcomplete => ⟨_, hsuperop, hcomplete⟩
        · rintro n m qs hosts rfl
          unfold applyKraus
          rw [if_neg hempty, checkedShift_of_lt hosts.length_lt, ok_bind, hfind]

theorem isLocal_applyReset (k : Nat) : IsLocal k True fun m qs => m.applyReset qs := by
  refine (isLocal_bind (resetMap k) (fun columns m qs =>
    m.onData (Kernel.dense (bothSides m.store.qubits qs) columns)) ?_).congr ?_
  · intro columns hcolumns
    rcases isSuperop_resetMap hcolumns with ⟨hsize, hsuperop⟩
    rw [← twoPow_two_mul] at hsuperop
    refine isLocal_onData (fun n qs => Kernel.dense (bothSides n qs) columns)
      (fun _ => ⟨_, hsuperop, isComplete_resetOperators _⟩) ?_
    rintro n m qs hosts rfl
    exact ⟨Kernel.actsAs_dense hosts.twice_lt hosts.nodup hosts.inside hosts.sides_lt
        (by rw [hsize]),
      Kernel.dense_empty columns hosts.bothSides_lt⟩
  · rintro n m qs hosts rfl
    exact applyReset_of_reaches hosts.reaches hosts.qubits_lt hosts.lt_wordBits

/-!
## Named gates
-/

variable {op : Instruction ℝ}

theorem isLocal_applyPauli (k : Nat) (op : Instruction ℝ) :
    IsLocal k True fun m qs => m.applyPauli { op with qubits := qs } := by
  by_cases hk : wordBits ≤ 2 * k
  · exact isLocal_of_le hk
  by_cases htexts : op.texts = []
  · refine (isLocal_error (.refused (.missing op.name .pauliString))).congr ?_
    intro n m qs _ _
    unfold applyPauli
    rw [htexts]
    rfl
  rcases List.exists_cons_of_ne_nil htexts with ⟨string, rest, hcons⟩
  have hkernel : forall n m qs, Hosts n m qs ->
      m.applyPauli { op with qubits := qs } =
        m.onData (Kernel.pauli (bothSides m.store.qubits qs) (string ++ string)
          (ySign string)) := by
    intro n m qs hosts
    unfold applyPauli
    rw [hcons]
    dsimp only
    rw [Store.bothBits_eq_ok hosts.qubits_lt hosts.lt_wordBits, ok_bind]
    rfl
  -- Whether a string has masks depends on how many qubits it is put on, not on which.
  have halike : forall n m qs, Hosts n m qs -> qs.length = k ->
      Alike (fun _ _ => True)
        (PauliMasks.ofString (bothSides k (List.range k)) (string ++ string))
        (PauliMasks.ofString (bothSides n qs) (string ++ string)) := by
    intro n m qs hosts hlen
    apply PauliMasks.ofString_alike
    · rw [length_bothSides, length_bothSides, List.length_range, hlen]
    · exact bothSides_lt_wordBits (Nat.lt_of_not_le hk) fun q hq => List.mem_range.mp hq
    · exact bothSides_lt_wordBits hosts.twice_lt hosts.inside
  cases hmasks : PauliMasks.ofString (bothSides k (List.range k)) (string ++ string) with
  | error fault =>
      refine (isLocal_error fault).congr ?_
      intro n m qs hosts hlen
      have hsame := halike n m qs hosts hlen
      rw [hmasks] at hsame
      rw [hkernel n m qs hosts, hosts.qubits]
      unfold onData update Store.transform Kernel.pauli
      rw [hsame.eq_error]
      rfl
  | ok masks =>
      have hspells := (spells_of_ofString_eq_ok hmasks).of_bothSides
      refine (isLocal_onData (fun n qs => Kernel.pauli (bothSides n qs)
        (string ++ string) (ySign string)) (u := Kernel.superopOf (twoPow k)
          (Kernel.pauliEntries k string)) ?_ ?_).congr fun n m qs hosts _ => hkernel n m qs hosts
      · exact fun _ => Kernel.isChannel_superopOf (Kernel.isComplete_pauliEntries k string)
      · rintro n m qs hosts rfl
        have hspelled : Spells qs string :=
          ⟨by rw [hspells.bytes, List.length_range], hspells.letters⟩
        exact ⟨Kernel.actsAs_pauli hspelled hosts.twice_lt hosts.nodup hosts.inside,
          Kernel.pauli_empty _ hspelled hosts.twice_lt hosts.inside⟩

theorem isLocal_enact (op : Instruction ℝ) {a : Action} (hfits : a.Fits k) :
    IsLocal k a.IsUnitary fun m qs => m.enact { op with qubits := qs } a := by
  cases a with
  | nothing =>
      have hone : forall x, x < twoPow k -> ((fun _ => 1 : Nat -> Amplitude ℝ) x).IsPhase :=
        fun _ _ => Amplitude.isPhase_one
      refine (isLocal_onData (fun _ _ b => .ok b)
        (u := Kernel.superopOf (twoPow k) (monomial id fun _ => 1)) ?_ ?_).congr ?_
      · exact fun _ => Kernel.isChannel_superopOf
          (isComplete_monomial (fun _ hx => hx) (fun _ _ => rfl) hone)
      · rintro n m qs hosts rfl
        have hmoves : Kernel.Moves n id (fun _ => 1) fun b => .ok b := by
          intro b _
          refine ⟨b, rfl, rfl, ?_⟩
          intro r c _ _
          rw [Amplitude.conj_one, one_mul, mul_one, id, id]
        exact ⟨hmoves.actsAs hosts.nodup hosts.inside
          ⟨fun _ hx => hx, fun _ _ _ _ => rfl, fun _ _ _ _ => rfl⟩, rfl⟩
      · intro n m qs _ _
        exact (onData_of_eq_ok rfl).symm
  | sided s =>
      refine isLocal_onData (fun n qs => s.both n qs)
        (fun hs => Kernel.isChannel_superopOf (s.isComplete_matrix hfits hs)) ?_
      rintro n m qs hosts rfl
      exact ⟨Sided.actsAs_both hosts.twice_lt hosts.nodup hosts.inside hfits,
        s.both_empty hosts.twice_lt hosts.inside⟩
  | diagonal entries =>
      exact isLocal_applyDiagonal k entries
  | matrix u =>
      exact (isLocal_applyMatrix k u).mono Or.inl
  | swap =>
      cases hfits
      refine isLocal_onData (fun n qs => Kernel.swap n (qs.getD 0 0) (qs.getD 1 0))
        (fun _ => Kernel.isChannel_superopOf Kernel.isComplete_swap) ?_
      intro n m qs hosts hlen
      rcases List.length_eq_two.mp hlen with ⟨p, q, rfl⟩
      exact ⟨Kernel.actsAs_swap hosts.twice_lt hosts.nodup hosts.inside,
        Kernel.swap_empty hosts.twice_lt (hosts.inside p (by simp)) (hosts.inside q (by simp))⟩
  | pauli =>
      exact (isLocal_applyPauli k op).mono fun _ => trivial

theorem isLocal_applyGate (op : Instruction ℝ) :
    IsLocal op.qubits.length (forall a, a ∈ op.params -> a.im = 0)
      fun m qs => m.applyGate { op with qubits := qs } := by
  cases hgate : Gate.ofName op.name with
  | error fault =>
      refine (isLocal_error fault).congr ?_
      intro n m qs _ _
      unfold applyGate
      rw [hgate]
      rfl
  | ok gate =>
      have hcheck : forall qs : List Nat, qs.length = op.qubits.length ->
          checkGate { op with qubits := qs } gate = checkGate op gate := by
        intro qs hlen
        unfold checkGate
        rw [hlen]
      have haction : forall qs : List Nat,
          gate.action { op with qubits := qs } = gate.action op := by
        intro qs
        cases gate <;> rfl
      refine (isLocal_bind (checkGate op gate) (fun _ m qs =>
        m.enact { op with qubits := qs } (gate.action op)) ?_).congr ?_
      · intro _ hok
        rcases checkGate_eq_ok_iff.mp hok with ⟨hwidth, _⟩
        exact (isLocal_enact op (gate.action_fits op hwidth)).mono
          fun hreal => gate.isUnitary_action hreal
      · intro n m qs hosts hlen
        unfold applyGate
        rw [hgate, ok_bind, hcheck qs hlen]
        cases hok : checkGate op gate with
        | error fault =>
            rfl
        | ok done =>
            rcases checkGate_eq_ok_iff.mp hok with ⟨hwidth, _⟩
            rw [ok_bind, ok_bind, hosts.whole, if_neg Bool.false_ne_true,
              applyLocal_eq_enact (by rw [← hlen] at hwidth; exact hwidth) hosts.qubits_lt
                hosts.lt_wordBits, haction]

end Machine

end MixedState
