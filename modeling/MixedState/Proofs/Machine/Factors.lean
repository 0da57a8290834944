import MixedState.Proofs.InPlace.Gates
import MixedState.Proofs.InPlace.Machine

/-!
# Pauli strings as products of their letters

A string flips the qubits of its X and Y on both sides of the matrix, and signs those of its
Y and Z.  One letter does this for one qubit, and letters on distinct qubits do not disturb
each other.
-/

namespace MixedState

open MixedState.Basis

/-!
## Signs and masks
-/

theorem signAt_singleton (q x : Nat) : signAt [q] x = if x.testBit q then -1 else 1 := by
  unfold signAt
  cases hx : x.testBit q <;> simp [hx]

theorem signAt_cons (q : Nat) (rest : List Nat) (x : Nat) :
    signAt (q :: rest) x = signAt [q] x * signAt rest x :=
  signAt_append [q] rest x

theorem signAt_xor (ps : List Nat) (x y : Nat) :
    signAt ps (x ^^^ y) = signAt ps x * signAt ps y := by
  induction ps with
  | nil =>
      exact (mul_one _).symm
  | cons q rest ih =>
      have hone : signAt [q] (x ^^^ y) = signAt [q] x * signAt [q] y := by
        rw [signAt_singleton, signAt_singleton, signAt_singleton, Nat.testBit_xor]
        cases x.testBit q <;> cases y.testBit q <;> simp
      rw [signAt_cons q rest, signAt_cons q rest, signAt_cons q rest, ih, hone]
      ring

theorem signAt_bitMask {ps qs : List Nat} (hdisjoint : forall q, q ∈ ps -> q ∉ qs) :
    signAt ps (bitMask qs) = 1 := by
  have hnone : ps.countP (bitMask qs).testBit = 0 := by
    rw [List.countP_eq_zero]
    intro q hq
    rw [testBit_bitMask, decide_eq_false (hdisjoint q hq)]
    exact Bool.false_ne_true
  unfold signAt
  rw [hnone]
  exact if_neg (by decide)

theorem bitMask_append_of_disjoint {ps qs : List Nat} (hdisjoint : forall q, q ∈ ps -> q ∉ qs) :
    bitMask (ps ++ qs) = bitMask ps ^^^ bitMask qs := by
  apply Nat.eq_of_testBit_eq
  intro i
  rw [Nat.testBit_xor, testBit_bitMask, testBit_bitMask, testBit_bitMask]
  by_cases hi : i ∈ ps
  · simp [hi, hdisjoint i hi]
  · simp [hi]

theorem bitMask_perm {ps qs : List Nat} (h : ps.Perm qs) : bitMask ps = bitMask qs := by
  apply Nat.eq_of_testBit_eq
  intro i
  rw [testBit_bitMask, testBit_bitMask, decide_eq_decide]
  exact h.mem_iff

/-!
## Letters
-/

/-- The entries of `P ρ P†` where `P` is the product of letters on qubits. -/
noncomputable def conjugated (pairs : List (Nat × Char)) (ρ : Entries) : Entries :=
  fun r c =>
    let mask := bitMask (flippedOf pairs)
    signAt (signedOf pairs) (r ^^^ mask) * ρ (r ^^^ mask) (c ^^^ mask) *
      signAt (signedOf pairs) (c ^^^ mask)

theorem mem_of_mem_flippedOf {pairs : List (Nat × Char)} {q : Nat} (h : q ∈ flippedOf pairs) :
    q ∈ pairs.map Prod.fst :=
  (List.filter_sublist.map _).subset h

theorem mem_of_mem_signedOf {pairs : List (Nat × Char)} {q : Nat} (h : q ∈ signedOf pairs) :
    q ∈ pairs.map Prod.fst :=
  (List.filter_sublist.map _).subset h

theorem conjugated_nil (ρ : Entries) : conjugated [] ρ = ρ := by
  funext r c
  change 1 * ρ (r ^^^ 0) (c ^^^ 0) * 1 = ρ r c
  rw [Nat.xor_zero, Nat.xor_zero, one_mul, mul_one]

theorem conjugated_cons {pair : Nat × Char} {rest : List (Nat × Char)} (ρ : Entries)
    (hnot : pair.1 ∉ rest.map Prod.fst) :
    conjugated rest (conjugated [pair] ρ) = conjugated (pair :: rest) ρ := by
  have hfirst : forall q, q ∈ [pair].map Prod.fst -> q ∉ rest.map Prod.fst := by
    intro q hq
    rw [List.mem_singleton.mp hq]
    exact hnot
  have hmask : bitMask (flippedOf (pair :: rest)) =
      bitMask (flippedOf rest) ^^^ bitMask (flippedOf [pair]) := by
    rw [← List.singleton_append, PauliMasks.flippedOf_append, bitMask_append_of_disjoint,
      Nat.xor_comm]
    exact fun q hq hq' => hfirst q (mem_of_mem_flippedOf hq) (mem_of_mem_flippedOf hq')
  have hsign : forall x, signAt (signedOf (pair :: rest)) (x ^^^ bitMask (flippedOf [pair])) =
      signAt (signedOf [pair]) (x ^^^ bitMask (flippedOf [pair])) * signAt (signedOf rest) x := by
    intro x
    have hapart : signAt (signedOf rest) (bitMask (flippedOf [pair])) = 1 :=
      signAt_bitMask fun q hq hq' =>
        hfirst q (mem_of_mem_flippedOf hq') (mem_of_mem_signedOf hq)
    rw [← List.singleton_append, PauliMasks.signedOf_append, signAt_append,
      signAt_xor (signedOf rest), hapart, mul_one]
  funext r c
  unfold conjugated
  dsimp only
  rw [hmask, ← Nat.xor_assoc, ← Nat.xor_assoc, hsign, hsign]
  ring

theorem conjugated_perm {order pairs : List (Nat × Char)} (h : order.Perm pairs) (ρ : Entries) :
    conjugated order ρ = conjugated pairs ρ := by
  have hmask : bitMask (flippedOf order) = bitMask (flippedOf pairs) :=
    bitMask_perm ((h.filter _).map _)
  have hsign : signAt (signedOf order) = signAt (signedOf pairs) := by
    funext x
    unfold signAt signedOf
    rw [((h.filter _).map _).countP_eq]
  unfold conjugated
  rw [hmask, hsign]

/-- The signs of a second turn are those of the first and one for the flipped qubits, which is
the same for rows and columns. -/
theorem conjugated_conjugated (pairs : List (Nat × Char)) (ρ : Entries) :
    conjugated pairs (conjugated pairs ρ) = ρ := by
  have hsquare : forall x, signAt (signedOf pairs) x * signAt (signedOf pairs) x = 1 :=
    signAt_mul_self (signedOf pairs)
  funext r c
  unfold conjugated
  dsimp only
  rw [Nat.xor_assoc, Nat.xor_self, Nat.xor_zero, Nat.xor_assoc, Nat.xor_self, Nat.xor_zero,
    signAt_xor, signAt_xor]
  linear_combination (signAt (signedOf pairs) c * signAt (signedOf pairs) c *
      signAt (signedOf pairs) (bitMask (flippedOf pairs)) *
      signAt (signedOf pairs) (bitMask (flippedOf pairs)) * ρ r c) * hsquare r +
    (signAt (signedOf pairs) (bitMask (flippedOf pairs)) *
      signAt (signedOf pairs) (bitMask (flippedOf pairs)) * ρ r c) * hsquare c +
    ρ r c * hsquare (bitMask (flippedOf pairs))

theorem conjugated_congr {n : Nat} {pairs : List (Nat × Char)} {ρ σ : Entries}
    (hpairs : forall q, q ∈ pairs.map Prod.fst -> q < n)
    (h : forall r c, r < twoPow n -> c < twoPow n -> ρ r c = σ r c) {r c : Nat}
    (hr : r < twoPow n) (hc : c < twoPow n) :
    conjugated pairs ρ r c = conjugated pairs σ r c := by
  have hflipped : forall q, q ∈ flippedOf pairs -> q < n :=
    fun q hq => hpairs q (mem_of_mem_flippedOf hq)
  unfold conjugated
  dsimp only
  rw [h _ _ (xor_bitMask_lt hflipped hr) (xor_bitMask_lt hflipped hc)]

/-!
## Machines
-/

namespace Machine

variable {n : Nat} {m m' m'' : Machine ℝ} {qs : List Nat}

theorem Holds.trans {σ τ : Entries} (h : m.Holds n σ m') (h' : m'.Holds n τ m'') :
    m.Holds n τ m'' := by
  refine ⟨?_, h'.full, h'.entries⟩
  rw [h'.rest, h.rest]
  rfl

theorem Holds.congr {σ τ : Entries} (h : m.Holds n σ m')
    (hsame : forall r c, r < twoPow n -> c < twoPow n -> σ r c = τ r c) : m.Holds n τ m' :=
  ⟨h.rest, h.full, fun r c hr hc => (h.entries r c hr hc).trans (hsame r c hr hc)⟩

theorem Lists.holds_self (h : m.Lists n qs) : m.Holds n (m.store.data.toEntries n) m :=
  ⟨rfl, h.full, fun _ _ _ _ => rfl⟩

theorem IsFull.of_holds {σ : Entries} (h : m.IsFull n) (hholds : m.Holds n σ m') :
    m'.IsFull n := by
  refine ⟨⟨?_, ?_, Or.inl hholds.full⟩, hholds.full, h.small⟩
  · rw [hholds.rest]
    exact h.width
  · rw [hholds.rest]
    exact h.qubits

theorem Lists.of_holds {σ : Entries} (h : m.Lists n qs) (hholds : m.Holds n σ m') :
    m'.Lists n qs :=
  ⟨h.toIsFull.of_holds hholds, h.inside⟩

theorem Lists.of_subset {ps : List Nat} (h : m.Lists n qs) (hps : forall q, q ∈ ps -> q ∈ qs) :
    m.Lists n ps :=
  ⟨h.toIsFull, fun q hq => h.inside q (hps q hq)⟩

theorem Lists.gives_moves {π : Nat -> Nat} {φ : Nat -> Amplitude ℝ}
    {kernel : Buffer ℝ -> Outcome (Buffer ℝ)} (h : m.Lists n qs)
    (hkernel : Kernel.Moves n π φ kernel) :
    Gives (m.Holds n fun r c => φ r * m.store.data.toEntries n (π r) (π c) * (φ c).conj)
      (m.onData kernel) := by
  rcases hkernel m.store.data h.full with ⟨b, hb, hsize, hentry⟩
  exact ⟨_, onData_of_eq_ok hb, rfl, hsize.trans h.full, hentry⟩

end Machine

/-!
## Single letters
-/

def letterGate : Char -> Gate
  | 'X' => .x
  | 'Y' => .y
  | 'Z' => .z
  | _ => .id

def Instruction.letter {R : Type} [Scalar R] (q : Nat) (c : Char) : Instruction R :=
  .gate (letterGate c).name [q] []

theorem flippedUnder_nil (q x : Nat) : Kernel.flippedUnder [] q x = x ^^^ bitMask [q] := by
  have hnone : covers (bitMask []) x = true :=
    (covers_bitMask_iff [] x).mpr fun _ hq => absurd hq List.not_mem_nil
  unfold Kernel.flippedUnder
  rw [if_pos hnone, bitMask_cons, bitMask_nil, Nat.or_zero]

theorem yFactor_eq (q x : Nat) :
    Sided.yFactor false q x = Amplitude.unit * signAt [q] (x ^^^ bitMask [q]) := by
  have hself : signAt [q] (bitMask [q]) = -1 := by
    rw [signAt_singleton, testBit_bitMask, decide_eq_true (List.mem_singleton_self q), if_pos rfl]
  unfold Sided.yFactor
  rw [signAt_xor, hself, signAt_singleton]
  cases x.testBit q <;> simp

theorem entry_signs (q x : Nat) :
    Buffer.entry #[1, -1] (gather [q] x) = (signAt [q] x : Amplitude ℝ) := by
  rw [signAt_singleton]
  cases hx : x.testBit q <;> simp [Buffer.entry, hx]

namespace Machine

variable {n : Nat} {m m' m'' : Machine ℝ} {qs : List Nat}

theorem Lists.gives_letter {q : Nat} {c : Char} (h : m.Lists n [q])
    (hc : isPauliLetter c = true) :
    Gives (m.Holds n (conjugated [(q, c)] (m.store.data.toEntries n)))
      (m.applyGate (.letter q c)) := by
  have hq : q < n := h.inside q (List.mem_singleton_self q)
  have hnone : forall p, p ∈ ([] : List Nat) -> p < n := fun _ hp => absurd hp List.not_mem_nil
  have hcovers : forall x, covers (bitMask []) x = true := fun x =>
    (covers_bitMask_iff [] x).mpr fun _ hp => absurd hp List.not_mem_nil
  simp only [isPauliLetter, Bool.or_eq_true, beq_iff_eq] at hc
  rcases hc with ((rfl | rfl) | rfl) | rfl
  · refine ⟨m, h.applyGate_eq_enact (.letter q 'I') rfl rfl, ?_⟩
    apply h.holds_self.congr
    intro r c _ _
    change _ = 1 * m.store.data.toEntries n (r ^^^ 0) (c ^^^ 0) * 1
    rw [Nat.xor_zero, Nat.xor_zero, one_mul, mul_one]
  · rw [h.applyGate_eq_enact (.letter q 'X') rfl rfl]
    change Gives _ (m.onData (Sided.flip.both m.store.qubits ([] ++ [q])))
    rw [h.qubits]
    rcases h.gives_moves (Sided.flip_moves h.small List.not_mem_nil hnone hq) with ⟨m', hm', hh⟩
    refine ⟨m', hm', hh.congr ?_⟩
    intro r c _ _
    rw [flippedUnder_nil, flippedUnder_nil, Amplitude.conj_one]
    rfl
  · rw [h.applyGate_eq_enact (.letter q 'Y') rfl rfl]
    change Gives _ (m.onData (Sided.flipY.both m.store.qubits ([] ++ [q])))
    rw [h.qubits]
    rcases h.gives_moves (Sided.flipY_moves h.small List.not_mem_nil hnone hq) with ⟨m', hm', hh⟩
    refine ⟨m', hm', hh.congr ?_⟩
    intro r c _ _
    -- The imaginary units of the two sides cancel, and the signs of the letter remain.
    have hunit : (Amplitude.unit * Amplitude.unit.conj : Amplitude ℝ) = 1 := by ext <;> simp
    rw [flippedUnder_nil, flippedUnder_nil, if_pos (hcovers r), if_pos (hcovers c), yFactor_eq,
      yFactor_eq, Amplitude.conj_mul, conj_signAt]
    change _ = signAt [q] (r ^^^ bitMask [q]) *
      m.store.data.toEntries n (r ^^^ bitMask [q]) (c ^^^ bitMask [q]) *
      signAt [q] (c ^^^ bitMask [q])
    linear_combination (signAt [q] (r ^^^ bitMask [q]) *
      m.store.data.toEntries n (r ^^^ bitMask [q]) (c ^^^ bitMask [q]) *
      signAt [q] (c ^^^ bitMask [q])) * hunit
  · rw [h.applyGate_eq_enact (.letter q 'Z') rfl rfl]
    change Gives _ (m.applyDiagonal [q] #[1, -1])
    have hfew : 1 < wordBits ∧ 2 * 1 ≤ wordBits := by decide
    rw [applyDiagonal_of_reaches h.reaches h.store_lt h.lt_wordBits hfew.1 rfl, h.qubits]
    have hmoves : Kernel.Moves n id (fun x => Buffer.entry #[1, -1] (gather [q] x))
        (Kernel.diagonalUnitary n [q] #[1, -1]) :=
      Kernel.diagonalUnitary_moves h.small hfew.2 h.inside rfl
    rcases h.gives_moves hmoves with ⟨m', hm', hh⟩
    refine ⟨m', hm', hh.congr ?_⟩
    intro r c _ _
    rw [entry_signs, entry_signs, conj_signAt, id, id]
    change _ = signAt [q] (r ^^^ 0) * m.store.data.toEntries n (r ^^^ 0) (c ^^^ 0) *
      signAt [q] (c ^^^ 0)
    rw [Nat.xor_zero, Nat.xor_zero]

theorem Lists.gives_letters {order : List (Nat × Char)} (h : m.Lists n (order.map Prod.fst))
    (hnodup : (order.map Prod.fst).Nodup)
    (hletters : forall pair, pair ∈ order -> isPauliLetter pair.2 = true) :
    Gives (m.Holds n (conjugated order (m.store.data.toEntries n)))
      (order.foldlM (fun m (pair : Nat × Char) => m.applyGate (.letter pair.1 pair.2)) m) := by
  induction order generalizing m with
  | nil =>
      refine ⟨m, rfl, ?_⟩
      rw [conjugated_nil]
      exact h.holds_self
  | cons pair rest ih =>
      rcases List.forall_mem_cons.mp hletters with ⟨hletter, hrest⟩
      rw [List.map_cons, List.nodup_cons] at hnodup
      have hpair : m.Lists n [pair.1] := h.of_subset (by simp)
      rcases hpair.gives_letter hletter with ⟨m₁, hm₁, hholds⟩
      have hafter : m₁.Lists n (rest.map Prod.fst) :=
        (h.of_subset fun q hq => List.mem_cons_of_mem _ hq).of_holds hholds
      rcases ih hafter hnodup.2 hrest with ⟨m₂, hm₂, hholds'⟩
      refine ⟨m₂, ?_, (hholds.trans hholds').congr ?_⟩
      · rw [List.foldlM_cons, hm₁, ok_bind]
        exact hm₂
      · intro r c hr hc
        rw [← conjugated_cons _ hnodup.1]
        exact conjugated_congr hafter.inside hholds.entries hr hc

/-!
## Strings
-/

theorem Lists.applyGate_pauli (h : m.Lists n qs) (string : String) :
    m.applyGate (.pauli qs string) = m.onData
      (Kernel.pauli (bothSides n qs) (string ++ string) (ySign string)) := by
  rw [h.applyGate_eq_enact (.pauli qs string) rfl rfl]
  exact h.applyPauli_eq_onData (.pauli qs string) rfl

theorem Lists.gives_pauli {string : String} (h : m.Lists n qs) (hnodup : qs.Nodup)
    (hspells : Spells qs string) :
    Gives (m.Holds n (conjugated (lettered qs string) (m.store.data.toEntries n)))
      (m.applyGate (.pauli qs string)) := by
  rw [h.applyGate_pauli]
  rcases h.gives_moves (Kernel.pauli_moves hspells h.small (hspells.nodup_signed hnodup)
    (fun _ => Iff.rfl) h.inside) with ⟨m', hm', hh⟩
  refine ⟨m', hm', hh.congr ?_⟩
  intro r c _ _
  rw [conj_signAt]
  rfl

theorem Lists.refuses_pauli {string : String} (h : m.Lists n qs) (hnot : ¬Spells qs string) :
    exists cause, m.applyGate (.pauli qs string) = refuse cause := by
  rw [h.applyGate_pauli]
  cases hmasks : PauliMasks.ofString (bothSides n qs) (string ++ string) with
  | ok masks =>
      exact absurd (spells_of_ofString_eq_ok hmasks).of_bothSides hnot
  | error fault =>
      have hanswers := PauliMasks.noCrash_ofString
        (bothSides_lt_wordBits h.small h.inside) (string ++ string)
      rcases hanswers.eq_refuse hmasks with ⟨cause, rfl⟩
      refine ⟨cause, ?_⟩
      unfold onData update Store.transform Kernel.pauli
      dsimp only
      rw [hmasks]
      rfl

theorem Lists.gives_order {string : String} {order : List (Nat × Char)} (h : m.Lists n qs)
    (hnodup : qs.Nodup) (hspells : Spells qs string) (horder : order.Perm (lettered qs string)) :
    Gives (m.Holds n (conjugated (lettered qs string) (m.store.data.toEntries n)))
      (order.foldlM (fun m (pair : Nat × Char) => m.applyGate (.letter pair.1 pair.2)) m) := by
  have hfst : (lettered qs string).map Prod.fst = qs :=
    List.map_fst_zip (by rw [List.length_reverse, hspells.length])
  have hqubits : (order.map Prod.fst).Perm qs := by
    rw [← hfst]
    exact horder.map Prod.fst
  have hletters : forall pair, pair ∈ order -> isPauliLetter pair.2 = true := by
    intro pair hpair
    have hmem := (List.of_mem_zip (horder.mem_iff.mp hpair)).2
    exact hspells.letters pair.2 (List.mem_reverse.mp hmem)
  rw [← conjugated_perm horder]
  exact (h.of_subset fun q hq => hqubits.mem_iff.mp hq).gives_letters
    (hqubits.nodup_iff.mpr hnodup) hletters

theorem Lists.pauli_pauli {string : String} (h : m.Lists n qs) (hnodup : qs.Nodup)
    (hspells : Spells qs string)
    (hholds : m.Holds n (conjugated (lettered qs string) (m.store.data.toEntries n)) m') :
    m'.applyGate (.pauli qs string) = .ok m := by
  rcases (h.of_holds hholds).gives_pauli hnodup hspells with ⟨m'', hm'', hholds'⟩
  have hback : m.Holds n (m.store.data.toEntries n) m'' := by
    apply (hholds.trans hholds').congr
    intro r c hr hc
    have hinside : forall q, q ∈ (lettered qs string).map Prod.fst -> q < n := by
      intro q hq
      rcases List.mem_map.mp hq with ⟨pair, hpair, rfl⟩
      exact h.inside _ (List.of_mem_zip hpair).1
    rw [conjugated_congr hinside hholds.entries hr hc, conjugated_conjugated]
  rw [hm'', hback.unique h.holds_self]

theorem InPlace.applyGate_of_refused {op : Instruction ℝ} {cause : Refusal}
    (h : m.applyGate op = refuse cause) : InPlace.applyGate op m = (refuse cause, m) := by
  have hcarries : Procedure.CarriesOut (InPlace.applyGate op) m (m.applyGate op) :=
    InPlace.carriesOut_applyGate
  unfold Procedure.CarriesOut at hcarries
  rw [h] at hcarries
  exact hcarries.eq_of_refused (Or.inr rfl)

/-- A string leaves what its letters leave in any order, twice nothing, and where it does not
spell the qubits it is refused before anything is written. -/
theorem pauli_leaves_factors (h : m.Lists n qs) (hnodup : qs.Nodup) :
    (forall string, Spells qs string ->
      exists m', m.applyGate (.pauli qs string) = .ok m' ∧
        Kernel.InPlace.pauli (bothSides n qs) (string ++ string) (ySign string) m.store.data =
          .ok m'.store.data ∧
        (forall order : List (Nat × Char), order.Perm (qs.zip string.toList.reverse) ->
          order.foldlM (fun m (pair : Nat × Char) => m.applyGate (.letter pair.1 pair.2)) m =
            .ok m') ∧
        m'.applyGate (.pauli qs string) = .ok m) ∧
    forall string, ¬Spells qs string ->
      exists cause, m.applyGate (.pauli qs string) = refuse cause ∧
        InPlace.applyGate (.pauli qs string) m = (refuse cause, m) := by
  constructor
  · intro string hspells
    rcases h.gives_pauli hnodup hspells with ⟨m', hm', hholds⟩
    refine ⟨m', hm', ?_, ?_, ?_⟩
    · rw [h.applyGate_pauli] at hm'
      rcases onData_eq_ok_iff.mp hm' with ⟨b, hb, rfl⟩
      rw [Kernel.InPlace.pauli_bothSides_eq h.small h.inside h.full]
      exact hb
    · intro order horder
      rcases h.gives_order hnodup hspells horder with ⟨m'', hm'', hholds'⟩
      rw [hm'', hholds.unique hholds']
    · exact h.pauli_pauli hnodup hspells hholds
  · intro string hnot
    rcases h.refuses_pauli hnot with ⟨cause, hrefused⟩
    exact ⟨cause, hrefused, InPlace.applyGate_of_refused hrefused⟩

/-- The letters of "XY" on the second and the first qubit, taken from the front; and a letter
of two bytes, which is none of the four. -/
theorem pauli_leaves_factors_pair :
    let m : Machine ℝ := ofStore ⟨2, 0, Buffer.tabulate 16 fun x => ⟨x, 1⟩⟩
    exists m', m.applyGate (.pauli [1, 0] "XY") = .ok m' ∧
      [(0, 'X'), (1, 'Y')].foldlM (fun m (pair : Nat × Char) =>
        m.applyGate (.letter pair.1 pair.2)) m = .ok m' ∧
      m'.applyGate (.pauli [1, 0] "XY") = .ok m ∧
      exists cause, InPlace.applyGate (.pauli [1, 0] "é") m = (refuse cause, m) := by
  intro m
  have hlists : m.Lists 2 [1, 0] :=
    ⟨⟨⟨rfl, rfl, Or.inl (Buffer.size_tabulate _ _)⟩, Buffer.size_tabulate _ _, by decide⟩,
      by decide⟩
  have hspells : Spells [1, 0] "XY" := ⟨by decide, List.all_eq_true.mp rfl⟩
  have hnot : ¬Spells [1, 0] "é" := by
    intro h
    exact absurd (h.letters 'é' (by decide)) (by decide)
  rcases pauli_leaves_factors hlists (by decide) with ⟨hproduct, hrefused⟩
  rcases hproduct "XY" hspells with ⟨m', hm', _, horders, htwice⟩
  rcases hrefused "é" hnot with ⟨cause, _, hinPlace⟩
  exact ⟨m', hm', horders _ (by decide), htwice, cause, hinPlace⟩

end Machine

end MixedState
