import MixedState.Noise.Model
import MixedState.Proofs.Machine.Channels
import MixedState.Proofs.Machine.PartialTrace
import MixedState.Proofs.Machine.Saves
import MixedState.Proofs.Pauli.Matrix

/-!
# Noise models are the channels that they name

The Kraus matrices of a model act on the block of four entries that differ at its qubit.
On each block they leave what the model is named for: a flip with a given probability, the
loss of all that the qubit held, or its decay.
-/

namespace MixedState

open MixedState.Basis
open Amplitude (ofReal unit)

/-!
## The channels
-/

noncomputable def mixture (p : ℝ) (ρ σ : Entries) : Entries :=
  fun r c => ofReal (1 - p) * ρ r c + ofReal p * σ r c

/-- Half the identity on the qubit, times the partial trace over it on the others. -/
noncomputable def randomized (n q : Nat) (ρ : Entries) : Entries :=
  fun r c => (if r.testBit q = c.testBit q then ofReal (Scalar.ofNat 2)⁻¹ else 0) *
    reduceTo n (unlisted n [q]) ρ (gather (unlisted n [q]) r) (gather (unlisted n [q]) c)

/-- Weight `g` of the block where the qubit is set goes to the block where it is not. -/
noncomputable def relaxed (q : Nat) (g : ℝ) (ρ : Entries) : Entries :=
  fun r c =>
    match r.testBit q, c.testBit q with
    | false, false => ρ r c + ofReal g * ρ (overwrite [q] r 1) (overwrite [q] c 1)
    | true, true => ofReal (1 - g) * ρ r c
    | _, _ => ofReal (Real.sqrt (1 - g)) * ρ r c

theorem relaxed_of_clear {q r c : Nat} {g : ℝ} {ρ : Entries} (hr : r.testBit q = false)
    (hc : c.testBit q = false) :
    relaxed q g ρ r c = ρ r c + ofReal g * ρ (overwrite [q] r 1) (overwrite [q] c 1) := by
  unfold relaxed
  rw [hr, hc]

/-- The blocks where the row and the column differ at the qubit shrink. -/
noncomputable def dephased (q : Nat) (g : ℝ) (ρ : Entries) : Entries :=
  fun r c => if r.testBit q = c.testBit q then ρ r c else ofReal (Real.sqrt (1 - g)) * ρ r c

noncomputable def NoiseModel.channelOn (model : NoiseModel ℝ) (n q : Nat) (ρ : Entries) :
    Entries :=
  let turned c := sandwich (twoPow n) (liftOn [q] (letterMatrix c).entry) ρ
  match model.kind with
  | .depolarizing => mixture model.strength ρ (randomized n q ρ)
  | .bitFlip => mixture model.strength ρ (turned 'X')
  | .phaseFlip => mixture model.strength ρ (turned 'Z')
  | .amplitudeDamping => relaxed q model.strength ρ
  | .phaseDamping => dephased q model.strength ρ
  | .readoutError => ρ

/-!
## Blocks of one qubit
-/

variable {n q r c : Nat} {ρ f : Entries}

theorem gather_singleton (q x : Nat) : gather [q] x = (x.testBit q).toNat := by
  rw [gather_cons, gather_nil, Nat.mul_zero, Nat.add_zero]

theorem krausSum_singleton (ks : List Entries) :
    krausSum [q] ks ρ r c =
      channel 2 ks (listedBlock [q] ρ r c) (r.testBit q).toNat (c.testBit q).toNat := by
  rw [krausSum_eq_channel, gather_singleton, gather_singleton]
  rfl

theorem listedBlock_bit :
    listedBlock [q] ρ r c (r.testBit q).toNat (c.testBit q).toNat = ρ r c := by
  rw [← gather_singleton, ← gather_singleton, listedBlock_gather (List.nodup_singleton q)]

theorem sandwich_liftOn_singleton (hq : q < n) (hr : r < twoPow n) (hc : c < twoPow n)
    (u : Entries) :
    sandwich (twoPow n) (liftOn [q] u) ρ r c =
      sandwich 2 u (listedBlock [q] ρ r c) (r.testBit q).toNat (c.testBit q).toNat := by
  rw [sandwich_liftOn_eq_listedBlock (List.nodup_singleton q) (by simpa using hq) hr hc,
    gather_singleton, gather_singleton]
  rfl

theorem reduceTo_unlisted {qs : List Nat} (hnodup : qs.Nodup) (hqs : forall q, q ∈ qs -> q < n)
    (hr : r < twoPow n) (hc : c < twoPow n) :
    reduceTo n (unlisted n qs) ρ (gather (unlisted n qs) r) (gather (unlisted n qs) c) =
      ∑ a ∈ Finset.range (twoPow qs.length), ρ (overwrite qs r a) (overwrite qs c a) := by
  have hagree : forall x, x < twoPow n ->
      (gather (unlisted n qs) x = gather (unlisted n qs) r ↔ overwrite qs r (gather qs x) = x) := by
    intro x hx
    have hjoins := joins_overwrite hnodup hqs hr (gather qs x)
    constructor
    · intro h
      rw [← h] at hjoins
      exact hjoins.unique (joins_gather hx)
    · intro h
      rw [← h]
      exact gather_congr fun q hq =>
        testBit_overwrite_of_not_mem r (gather qs x) (mem_unlisted.mp hq).2
  have hterm : forall x, x ∈ Finset.range (twoPow n) ->
      (if gather (unlisted n qs) x = gather (unlisted n qs) r then
        ρ x (overwrite (unlisted n qs) x (gather (unlisted n qs) c)) else 0) =
      if overwrite qs r (gather qs x) = x then ρ x (overwrite qs c (gather qs x)) else 0 := by
    intro x hx
    have hx := Finset.mem_range.mp hx
    rw [(joins_overwrite_unlisted hx _).unique (joins_overwrite hnodup hqs hc (gather qs x))]
    exact if_congr (hagree x hx) rfl rfl
  unfold reduceTo
  rw [Finset.sum_congr rfl hterm, sum_overwrite hnodup hqs hr]
  apply Finset.sum_congr rfl
  intro a ha
  rw [gather_overwrite r hnodup (Finset.mem_range.mp ha)]

theorem randomized_eq (hq : q < n) (hr : r < twoPow n) (hc : c < twoPow n) :
    randomized n q ρ r c = (if r.testBit q = c.testBit q then ofReal (Scalar.ofNat 2)⁻¹ else 0) *
      (listedBlock [q] ρ r c 0 0 + listedBlock [q] ρ r c 1 1) := by
  unfold randomized
  rw [reduceTo_unlisted (List.nodup_singleton q) (by simpa using hq) hr hc]
  change _ * ∑ a ∈ Finset.range 2, _ = _
  rw [Finset.sum_range_succ, Finset.sum_range_one]
  rfl

/-!
## Matrices of one qubit
-/

theorem sandwich_diagonal_two (a d : Amplitude ℝ) (x y : Bool) :
    sandwich 2 (Mat.two a 0 0 d).entry f x.toNat y.toNat =
      (if x then d else a) * f x.toNat y.toNat * (if y then d else a).conj := by
  have hzero : (Mat.two a 0 0 d).entry 0 0 = a ∧ (Mat.two a 0 0 d).entry 0 1 = 0 ∧
      (Mat.two a 0 0 d).entry 1 0 = 0 ∧ (Mat.two a 0 0 d).entry 1 1 = d := ⟨rfl, rfl, rfl, rfl⟩
  rcases hzero with ⟨h00, h01, h10, h11⟩
  unfold sandwich
  cases x <;> cases y
  all_goals
    simp [Finset.sum_range_succ, h00, h01, h10, h11]

theorem sandwich_antidiagonal_two (b c : Amplitude ℝ) (x y : Bool) :
    sandwich 2 (Mat.two 0 b c 0).entry f x.toNat y.toNat =
      (if x then c else b) * f (!x).toNat (!y).toNat * (if y then c else b).conj := by
  have hentries : (Mat.two 0 b c 0).entry 0 0 = 0 ∧ (Mat.two 0 b c 0).entry 0 1 = b ∧
      (Mat.two 0 b c 0).entry 1 0 = c ∧ (Mat.two 0 b c 0).entry 1 1 = 0 := ⟨rfl, rfl, rfl, rfl⟩
  rcases hentries with ⟨h00, h01, h10, h11⟩
  unfold sandwich
  cases x <;> cases y
  all_goals
    simp [Finset.sum_range_succ, h00, h01, h10, h11]

theorem ofReal_sqrt_mul_self {x : ℝ} (hx : 0 ≤ x) :
    ofReal (Scalar.sqrt x) * ofReal (Scalar.sqrt x) = ofReal x := by
  have hsqrt : Scalar.sqrt x * Scalar.sqrt x = x := Real.mul_self_sqrt hx
  ext
  · simpa using hsqrt
  · simp

theorem ofReal_neg (x : ℝ) : ofReal (-x) = -ofReal x := by
  ext <;> simp

theorem unit_mul_unit : (unit : Amplitude ℝ) * unit = -1 := by
  ext <;> simp

namespace NoiseModel

/-!
## Models on one block
-/

section Blocks

variable {s : ℝ} {operators : List (Mat ℝ)} (hlow : 0 ≤ s) (hhigh : s ≤ 1) (x y : Bool)

include hlow hhigh

theorem channel_bitFlip (h : (⟨.bitFlip, s⟩ : NoiseModel ℝ).krausOperators? = some operators) :
    channel 2 (operators.map Mat.entry) f x.toNat y.toNat =
      ofReal (1 - s) * f x.toNat y.toNat + ofReal s * f (!x).toNat (!y).toNat := by
  cases h
  have hkeep := ofReal_sqrt_mul_self (sub_nonneg.mpr hhigh)
  have hmove := ofReal_sqrt_mul_self hlow
  simp only [channel, List.map_cons, List.map_nil, List.sum_cons, List.sum_nil, add_zero,
    sandwich_diagonal_two, sandwich_antidiagonal_two, ite_self, Amplitude.conj_ofReal]
  linear_combination f x.toNat y.toNat * hkeep + f (!x).toNat (!y).toNat * hmove

theorem channel_phaseFlip
    (h : (⟨.phaseFlip, s⟩ : NoiseModel ℝ).krausOperators? = some operators) :
    channel 2 (operators.map Mat.entry) f x.toNat y.toNat =
      ofReal (1 - s) * f x.toNat y.toNat +
        ofReal s * (if x = y then f x.toNat y.toNat else -f x.toNat y.toNat) := by
  cases h
  have hkeep := ofReal_sqrt_mul_self (sub_nonneg.mpr hhigh)
  have hmove := ofReal_sqrt_mul_self hlow
  simp only [channel, List.map_cons, List.map_nil, List.sum_cons, List.sum_nil, add_zero,
    sandwich_diagonal_two, ite_self, Amplitude.conj_ofReal, Amplitude.conj_ite, ofReal_neg,
    Amplitude.conj_neg]
  generalize f x.toNat y.toNat = value
  cases x <;> cases y
  all_goals
    simp only [↓reduceIte, reduceCtorEq]
  · linear_combination value * hkeep + value * hmove
  · linear_combination value * hkeep - value * hmove
  · linear_combination value * hkeep - value * hmove
  · linear_combination value * hkeep + value * hmove

theorem channel_amplitudeDamping
    (h : (⟨.amplitudeDamping, s⟩ : NoiseModel ℝ).krausOperators? = some operators) :
    channel 2 (operators.map Mat.entry) f x.toNat y.toNat =
      match x, y with
      | false, false => f 0 0 + ofReal s * f 1 1
      | true, true => ofReal (1 - s) * f 1 1
      | _, _ => ofReal (Scalar.sqrt (1 - s)) * f x.toNat y.toNat := by
  cases h
  have hkeep := ofReal_sqrt_mul_self (sub_nonneg.mpr hhigh)
  have hmove := ofReal_sqrt_mul_self hlow
  simp only [channel, List.map_cons, List.map_nil, List.sum_cons, List.sum_nil, add_zero,
    sandwich_diagonal_two, sandwich_antidiagonal_two, Amplitude.conj_ite, Amplitude.conj_ofReal,
    Amplitude.conj_zero, Amplitude.conj_one]
  cases x <;> cases y
  all_goals
    simp only [↓reduceIte, reduceCtorEq, Bool.not_false, Bool.not_true, Bool.toNat_false,
      Bool.toNat_true]
  · linear_combination f 1 1 * hmove
  · ring
  · ring
  · linear_combination f 1 1 * hkeep

theorem channel_phaseDamping
    (h : (⟨.phaseDamping, s⟩ : NoiseModel ℝ).krausOperators? = some operators) :
    channel 2 (operators.map Mat.entry) f x.toNat y.toNat =
      if x = y then f x.toNat y.toNat
      else ofReal (Scalar.sqrt (1 - s)) * f x.toNat y.toNat := by
  cases h
  have hkeep := ofReal_sqrt_mul_self (sub_nonneg.mpr hhigh)
  have hmove := ofReal_sqrt_mul_self hlow
  have hall : ofReal (1 - s) + ofReal s = 1 := by
    ext <;> simp
  simp only [channel, List.map_cons, List.map_nil, List.sum_cons, List.sum_nil, add_zero,
    sandwich_diagonal_two, Amplitude.conj_ite, Amplitude.conj_ofReal, Amplitude.conj_zero,
    Amplitude.conj_one]
  generalize f x.toNat y.toNat = value
  cases x <;> cases y
  all_goals
    simp only [↓reduceIte, reduceCtorEq]
  · ring
  · ring
  · ring
  · linear_combination value * hkeep + value * hmove + value * hall

theorem channel_depolarizing
    (h : (⟨.depolarizing, s⟩ : NoiseModel ℝ).krausOperators? = some operators) :
    channel 2 (operators.map Mat.entry) f x.toNat y.toNat =
      ofReal (1 - s) * f x.toNat y.toNat +
        ofReal s * ((if x = y then ofReal (Scalar.ofNat 2)⁻¹ else 0) * (f 0 0 + f 1 1)) := by
  unfold krausOperators? at h
  dsimp only at h
  rw [Scalar.ofNat_real 3, Scalar.ofNat_real 4] at h
  rw [Scalar.ofNat_real 2]
  cases h
  have hstay := ofReal_sqrt_mul_self (x := 1 - 3 / 4 * s) (by linarith)
  have hturn := ofReal_sqrt_mul_self (x := s / 4) (by linarith)
  generalize (Scalar.sqrt (1 - 3 / 4 * s) : ℝ) = stay at *
  generalize (Scalar.sqrt (s / 4) : ℝ) = turn at *
  -- Of the two roots only the squares are known from here on.
  have hkeep : ofReal (1 - 3 / 4 * s) = ofReal (1 - s) + ofReal (s / 4) := by
    ext
    · simp
      ring
    · simp
  have hlose : ofReal s * ofReal 2⁻¹ = ofReal (s / 4) + ofReal (s / 4) := by
    ext
    · simp
      ring
    · simp
  have hreal : (⟨turn, 0⟩ : Amplitude ℝ) = ofReal turn ∧
      (⟨-turn, 0⟩ : Amplitude ℝ) = -ofReal turn :=
    ⟨rfl, ofReal_neg turn⟩
  have himaginary : (⟨0, turn⟩ : Amplitude ℝ) = unit * ofReal turn ∧
      (⟨0, -turn⟩ : Amplitude ℝ) = -(unit * ofReal turn) := by
    constructor
    · ext <;> simp
    · ext <;> simp
  simp only [channel, List.map_cons, List.map_nil, List.sum_cons, List.sum_nil, add_zero,
    sandwich_diagonal_two, sandwich_antidiagonal_two, hreal, himaginary, Amplitude.conj_ite,
    Amplitude.conj_ofReal, Amplitude.conj_neg, Amplitude.conj_mul, Amplitude.conj_unit]
  rw [hkeep] at hstay
  have hunit := unit_mul_unit
  cases x <;> cases y
  all_goals
    simp only [↓reduceIte, reduceCtorEq, Bool.not_false, Bool.not_true, Bool.toNat_false,
      Bool.toNat_true]
  · linear_combination f 0 0 * hstay + (f 0 0 + 2 * f 1 1) * hturn - (f 0 0 + f 1 1) * hlose -
      ofReal turn * ofReal turn * f 1 1 * hunit
  · linear_combination f 0 1 * hstay - f 0 1 * hturn + ofReal turn * ofReal turn * f 1 0 * hunit
  · linear_combination f 1 0 * hstay - f 1 0 * hturn + ofReal turn * ofReal turn * f 0 1 * hunit
  · linear_combination f 1 1 * hstay + (f 1 1 + 2 * f 0 0) * hturn - (f 0 0 + f 1 1) * hlose -
      ofReal turn * ofReal turn * f 0 0 * hunit

end Blocks

/-!
## Models on a register
-/

variable {model : NoiseModel ℝ} {operators : List (Mat ℝ)}

theorem krausSum_krausOperators (hlow : 0 ≤ model.strength) (hhigh : model.strength ≤ 1)
    (h : model.krausOperators? = some operators) (hq : q < n) (hr : r < twoPow n)
    (hc : c < twoPow n) :
    krausSum [q] (operators.map Mat.entry) ρ r c = model.channelOn n q ρ r c := by
  have hself := listedBlock_bit (q := q) (ρ := ρ) (r := r) (c := c)
  have hset : ρ (overwrite [q] r 1) (overwrite [q] c 1) = listedBlock [q] ρ r c 1 1 := rfl
  have hroot : forall x : ℝ, Scalar.sqrt x = Real.sqrt x := fun _ => rfl
  rw [krausSum_singleton]
  rcases model with ⟨kind, s⟩
  cases kind with
  | depolarizing =>
      change _ = mixture s ρ (randomized n q ρ) r c
      unfold mixture
      rw [channel_depolarizing hlow hhigh _ _ h, randomized_eq hq hr hc, hself]
  | bitFlip =>
      change _ = mixture s ρ (sandwich _ (liftOn [q] (Mat.two 0 1 1 0).entry) ρ) r c
      unfold mixture
      rw [channel_bitFlip hlow hhigh _ _ h, sandwich_liftOn_singleton hq hr hc,
        sandwich_antidiagonal_two, ite_self, ite_self, Amplitude.conj_one, one_mul, mul_one, hself]
  | phaseFlip =>
      change _ = mixture s ρ (sandwich _ (liftOn [q] (Mat.two 1 0 0 (-1)).entry) ρ) r c
      unfold mixture
      rw [channel_phaseFlip hlow hhigh _ _ h, sandwich_liftOn_singleton hq hr hc,
        sandwich_diagonal_two, hself]
      cases r.testBit q <;> cases c.testBit q <;> simp
  | amplitudeDamping =>
      change _ = relaxed q s ρ r c
      unfold relaxed
      rw [channel_amplitudeDamping hlow hhigh _ _ h, hset, ← hself, hroot]
      cases r.testBit q <;> cases c.testBit q <;> rfl
  | phaseDamping =>
      change _ = dephased q s ρ r c
      unfold dephased
      rw [channel_phaseDamping hlow hhigh _ _ h, hself, hroot]
  | readoutError =>
      cases h

theorem exists_toInstruction (hkind : model.kind ≠ .readoutError) (qubit slot : Nat) :
    exists operators, model.krausOperators? = some operators ∧ operators ≠ [] ∧
      (forall u, u ∈ operators -> u.rows = 2 ∧ u.cols = 2) ∧
      model.toInstruction qubit slot =
        .ok { Instruction.ofKind .kraus with qubits := [qubit], matrices := operators } := by
  rcases model with ⟨kind, s⟩
  cases kind with
  | readoutError =>
      exact absurd rfl hkind
  | _ =>
      refine ⟨_, rfl, List.cons_ne_nil _ _, ?_, rfl⟩
      simp [Mat.two]

end NoiseModel

/-- The instruction of a noise model on a qubit leaves the channel that the model is named
for, and nothing else of the experiment changes. -/
theorem Experiment.apply_noise {e : Experiment ℝ} {model : NoiseModel ℝ}
    (h : e.machine.IsFull n) (hq : q < n) (hlow : 0 ≤ model.strength)
    (hhigh : model.strength ≤ 1) (hkind : model.kind ≠ .readoutError) (slot : Nat)
    (final : Bool) :
    exists op m', model.toInstruction q slot = .ok op ∧
      e.apply op final = (.ok (), { e with machine := m' }) ∧
      e.machine.Holds n (model.channelOn n q (e.machine.store.data.toEntries n)) m' := by
  rcases model.exists_toInstruction hkind q slot with ⟨operators, hoperators, hne, hshapes, hop⟩
  have hlists : e.machine.Lists n [q] := ⟨h, by simpa using hq⟩
  rcases hlists.gives_applyKraus (List.nodup_singleton q)
      (show twoPow 4 * 16 < bufferLimit by decide) hne hshapes with
    ⟨m', hm', hholds⟩
  refine ⟨_, m', hop, ?_, hholds.rest, hholds.full, ?_⟩
  · rw [apply_of_allows rfl (by simpa [h.width] using hq)]
    change e.evolve (e.machine.applyKraus [q] operators) = _
    rw [hm']
    rfl
  · intro r c hr hc
    rw [hholds.entries r c hr hc,
      NoiseModel.krausSum_krausOperators hlow hhigh hoperators hq hr hc]

noncomputable def secondSet : Experiment ℝ :=
  { machine := .ofStore ⟨2, 0, Buffer.tabulate 16 fun x => if x = 10 then 1 else 0⟩
    archive := .empty
    source := .ofSeed 0 }

theorem Experiment.apply_noise_relaxes :
    exists op m', (⟨.amplitudeDamping, 2⁻¹⟩ : NoiseModel ℝ).toInstruction 1 0 = .ok op ∧
      secondSet.apply op false = (.ok (), { secondSet with machine := m' }) ∧
      m'.store.data.toEntries 2 0 0 = ofReal 2⁻¹ := by
  have hfull : secondSet.machine.IsFull 2 :=
    ⟨⟨rfl, rfl, Or.inl (Buffer.size_tabulate _ _)⟩, Buffer.size_tabulate _ _, by decide⟩
  have hkind : (⟨.amplitudeDamping, 2⁻¹⟩ : NoiseModel ℝ).kind ≠ .readoutError := by decide
  rcases apply_noise hfull (show 1 < 2 by decide) (by norm_num) (by norm_num) hkind 0 false with
    ⟨op, m', hop, happly, hholds⟩
  refine ⟨op, m', hop, happly, ?_⟩
  rw [hholds.entries 0 0 (by decide) (by decide)]
  have hread : forall x, x < twoPow 2 -> secondSet.machine.store.data.toEntries 2 x x =
      if x = 2 then 1 else 0 := by
    intro x hx
    have hcell : x + x * 4 < 16 := cell_lt hx hx
    change (Buffer.tabulate 16 fun x => if x = 10 then (1 : Amplitude ℝ) else 0).entry
      (x + x * 4) = _
    rw [Buffer.entry_tabulate_of_lt _ hcell]
    exact if_congr (by omega) rfl rfl
  change relaxed 1 2⁻¹ (secondSet.machine.store.data.toEntries 2) 0 0 = _
  rw [relaxed_of_clear (by decide) (by decide), hread 0 (by decide),
    hread (overwrite [1] 0 1) (by decide), if_neg (by decide), if_pos (by decide), zero_add,
    mul_one]

end MixedState
