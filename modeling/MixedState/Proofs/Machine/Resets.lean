import MixedState.Proofs.Machine.Channels
import MixedState.Proofs.Machine.Factors
import MixedState.Proofs.Machine.Measurement

/-!
# Resets average over measurements

Collapsing onto an outcome and moving it to another leaves one block of the density matrix,
divided by its probability.  A reset is the sum of what collapsing onto each possible outcome
and moving it to zero leaves, weighted by its probability.
-/

namespace MixedState

open MixedState.Basis
open Amplitude (ofReal)

/-!
## Exchanged outcomes
-/

def swapped (a b i : Nat) : Nat :=
  if i = a then b else if i = b then a else i

def swappedAt (qs : List Nat) (a b x : Nat) : Nat :=
  overwrite qs x (swapped a b (gather qs x))

theorem swapped_lt {a b i d : Nat} (ha : a < d) (hb : b < d) (hi : i < d) : swapped a b i < d := by
  unfold swapped
  split_ifs <;> assumption

theorem swapped_swapped (a b i : Nat) : swapped a b (swapped a b i) = i := by
  unfold swapped
  split_ifs <;> omega

theorem swapped_self (a i : Nat) : swapped a a i = i := by
  unfold swapped
  split_ifs <;> omega

theorem swapped_eq_iff {a b i : Nat} : swapped a b i = a ↔ i = b := by
  unfold swapped
  split_ifs <;> omega

theorem swappedAt_self {qs : List Nat} (hnodup : qs.Nodup) (a x : Nat) :
    swappedAt qs a a x = x := by
  unfold swappedAt
  rw [swapped_self, overwrite_gather x hnodup]

theorem gather_swappedAt {qs : List Nat} {a b : Nat} (hnodup : qs.Nodup)
    (ha : a < twoPow qs.length) (hb : b < twoPow qs.length) (x : Nat) :
    gather qs (swappedAt qs a b x) = swapped a b (gather qs x) :=
  gather_overwrite x hnodup (swapped_lt ha hb (gather_lt qs x))

theorem swappedAt_singleton {q a b : Nat} (ha : a < 2) (hb : b < 2) (hne : b ≠ a) (x : Nat) :
    swappedAt [q] a b x = x ^^^ bitMask [q] := by
  have hunlisted : forall p, p ∉ [q] -> (x ^^^ bitMask [q]).testBit p = x.testBit p := by
    intro p hp
    rw [Nat.testBit_xor, testBit_bitMask, decide_eq_false hp, Bool.xor_false]
  have hlisted : gather [q] (x ^^^ bitMask [q]) = swapped a b (gather [q] x) := by
    rw [gather_cons, gather_cons, gather_nil, gather_nil, Nat.testBit_xor, testBit_bitMask,
      decide_eq_true (List.mem_singleton_self q), Bool.xor_true]
    unfold swapped
    cases x.testBit q
    all_goals
      simp only [Bool.not_true, Bool.not_false, Bool.toNat_true, Bool.toNat_false]
      split_ifs <;> omega
  unfold swappedAt
  rw [eq_overwrite_gather (List.nodup_singleton q) hunlisted, hlisted]

theorem entry_exchangeMatrix {d a b i j : Nat} (hi : i < d) (hj : j < d) :
    (Machine.exchangeMatrix d a b : Mat ℝ).entry i j =
      monomial (swapped a b) (fun _ => 1) i j := by
  unfold Machine.exchangeMatrix monomial
  rw [Mat.entry_ofFn _ hi hj]
  refine if_congr ?_ rfl rfl
  change i = swapped a b j ↔ j = swapped a b i
  constructor
  · intro h
    rw [h, swapped_swapped]
  · intro h
    rw [h, swapped_swapped]

namespace Machine

variable {n : Nat} {m m' : Machine ℝ} {qs : List Nat} {outcome final : Nat} {p : ℝ}

theorem exchangeOutcomes_single (hne : final ≠ outcome) (q : Nat) :
    m.exchangeOutcomes [q] final outcome = m.update fun store => store.applyFlip [q] :=
  if_neg hne

/-- Outcomes of several qubits are exchanged by a matrix, which has to fit in memory. -/
def RoomToMove (qs : List Nat) (final outcome : Nat) : Prop :=
  final = outcome ∨ twoPow (2 * qs.length) * 16 < bufferLimit

theorem roomToMove_iff : RoomToMove qs final outcome ↔ final = outcome ∨ qs.length < 30 := by
  unfold RoomToMove
  rw [twoPow_mul_sixteen_lt_iff]
  omega

theorem exchangeOutcomes_eq (hne : final ≠ outcome) (hmany : 2 ≤ qs.length) :
    m.exchangeOutcomes qs final outcome = (do
      let dim ← checkedShift qs.length
      allocate 16 (dim * dim)
      orCrash (final < dim && outcome < dim)
      m.applyMatrix qs (exchangeMatrix dim outcome final)) := by
  unfold exchangeOutcomes
  rw [if_neg hne]
  cases qs with
  | nil =>
      exact absurd hmany (by decide)
  | cons q rest =>
      cases rest with
      | nil =>
          exact absurd hmany (show ¬2 ≤ 1 by decide)
      | cons p rest =>
          rfl

theorem exchangeOutcomes_several (hne : final ≠ outcome) (hmany : 2 ≤ qs.length)
    (hlen : qs.length < 30) (hfinal : final < twoPow qs.length)
    (houtcome : outcome < twoPow qs.length) :
    m.exchangeOutcomes qs final outcome =
      m.applyMatrix qs (exchangeMatrix (twoPow qs.length) outcome final) := by
  have hword : wordBits = 64 := rfl
  rw [exchangeOutcomes_eq hne hmany, checkedShift_of_lt (by omega), ok_bind, ← twoPow_two_mul,
    allocate_sixteen_of_lt (by omega), ok_bind,
    orCrash_of_true (by rw [decide_eq_true hfinal, decide_eq_true houtcome]; rfl), ok_bind]

theorem exchangeOutcomes_without_room (hroom : ¬RoomToMove qs final outcome) :
    m.exchangeOutcomes qs final outcome = crash := by
  rcases not_or.mp (mt roomToMove_iff.mpr hroom) with ⟨hne, hlen⟩
  rw [exchangeOutcomes_eq hne (by omega)]
  by_cases hword : qs.length < wordBits
  · rw [checkedShift_of_lt hword, ok_bind, ← twoPow_two_mul, allocate_sixteen_of_le (by omega)]
    rfl
  · rw [checkedShift_of_le (Nat.not_lt.mp hword)]
    rfl

theorem single_or_several (hne : final ≠ outcome) (hfinal : final < twoPow qs.length)
    (houtcome : outcome < twoPow qs.length) : (exists q, qs = [q]) ∨ 2 ≤ qs.length := by
  cases qs with
  | nil =>
      exact absurd ((Nat.lt_one_iff.mp hfinal).trans (Nat.lt_one_iff.mp houtcome).symm) hne
  | cons q rest =>
      cases rest with
      | nil =>
          exact Or.inl ⟨q, rfl⟩
      | cons p rest =>
          exact Or.inr (Nat.le_add_left 2 rest.length)

theorem Lists.gives_exchangeOutcomes (h : m.Lists n qs) (hnodup : qs.Nodup)
    (hfinal : final < twoPow qs.length) (houtcome : outcome < twoPow qs.length)
    (hroom : RoomToMove qs final outcome) :
    Gives (m.Holds n fun r c => m.store.data.toEntries n (swappedAt qs outcome final r)
        (swappedAt qs outcome final c))
      (m.exchangeOutcomes qs final outcome) := by
  by_cases hsame : final = outcome
  · refine ⟨m, if_pos hsame, h.holds_self.congr ?_⟩
    intro r c _ _
    rw [hsame, swappedAt_self hnodup, swappedAt_self hnodup]
  · rcases single_or_several hsame hfinal houtcome with ⟨q, rfl⟩ | hmany
    · have hflip : (m.update fun store => store.applyFlip [q]) =
          m.onData (Sided.flip.both m.store.qubits ([] ++ [q])) :=
        update_eq_onData (Store.applyFlip_eq h.store_lt h.lt_wordBits)
      rw [exchangeOutcomes_single hsame, hflip, h.qubits]
      rcases h.gives_moves (Sided.flip_moves h.small List.not_mem_nil (by simp)
        (h.inside q List.mem_cons_self)) with ⟨m', hm', hholds⟩
      refine ⟨m', hm', hholds.congr ?_⟩
      intro r c _ _
      rw [flippedUnder_nil, flippedUnder_nil, one_mul, Amplitude.conj_one, mul_one,
        swappedAt_singleton houtcome hfinal hsame, swappedAt_singleton houtcome hfinal hsame]
    · have hlen := (roomToMove_iff.mp hroom).resolve_left hsame
      rw [exchangeOutcomes_several hsame hmany hlen hfinal houtcome]
      rcases h.gives_applyMatrix hnodup (u := exchangeMatrix (twoPow qs.length) outcome final)
          rfl rfl with
        ⟨m', hm', hholds⟩
      refine ⟨m', hm', hholds.congr ?_⟩
      intro r c _ _
      rw [krausSum_congr fun i j hi hj => entry_exchangeMatrix hi hj,
        krausSum_monomial fun x hx => swapped_lt houtcome hfinal hx, one_mul, Amplitude.conj_one,
        mul_one]
      rfl

/-!
## Collapsing onto an outcome
-/

/-- The entries whose row and column spell `outcome`, divided by `p`, are where they spell
`final` instead. -/
noncomputable def movedBlock (qs : List Nat) (final outcome : Nat) (p : ℝ) (ρ : Entries) :
    Entries :=
  fun r c => if gather qs r = final ∧ gather qs c = final then
    ofReal p⁻¹ * ρ (overwrite qs r outcome) (overwrite qs c outcome) else 0

theorem Lists.gives_project (h : m.Lists n qs) (hnodup : qs.Nodup)
    (houtcome : outcome < twoPow qs.length) (hp : 0 < p) :
    Gives (m.Holds n fun r c => if gather qs r = outcome ∧ gather qs c = outcome then
        ofReal p⁻¹ * m.store.data.toEntries n r c else 0)
      (m.project qs outcome p) := by
  have hlen := length_le_of_nodup hnodup h.inside
  have hsmall := h.small
  have hword : wordBits = 64 := rfl
  have hwidth : forall q, q ∈ qs -> q < m.width := fun q hq => h.width.symm ▸ h.inside q hq
  have hqubits : forall q, q ∈ qs -> q < m.store.qubits :=
    fun q hq => h.qubits.symm ▸ h.inside q hq
  have hfull : m.store.data.size = twoPow m.store.qubits * twoPow m.store.qubits := by
    rw [h.full, h.qubits, twoPow_two_mul]
  have hbits : forall q, q ∈ bothSides m.store.qubits qs -> q < wordBits := by
    rw [h.qubits]
    exact bothSides_lt_wordBits h.small h.inside
  refine ⟨m.collapsed qs outcome p, (project_eq_ok_iff h.width_eq h.store_lt hwidth hp).mpr
    ⟨⟨by omega, houtcome, Or.inr ⟨hbits, by omega⟩⟩, rfl⟩, rfl, ?_, ?_⟩
  · exact (Buffer.size_tabulate _ _).trans h.full
  · intro r c hr hc
    have hentry : (m.collapsed qs outcome p).store.data.entry (cell m.store.qubits r c) = _ :=
      entry_collapsed hqubits (le_of_eq hfull.symm) (h.qubits.symm ▸ hr) (h.qubits.symm ▸ hc)
    rw [h.qubits] at hentry
    exact hentry

theorem collapse_of_ok {m₁ : Machine ℝ} (hproject : m.project qs outcome p = .ok m₁)
    (hexchange : m₁.exchangeOutcomes qs final outcome = .ok m') :
    m.collapse qs final outcome p = (.ok (), m') := by
  unfold collapse
  rw [hproject]
  dsimp only
  rw [hexchange]

theorem collapse_of_error {m₁ : Machine ℝ} {fault : Fault}
    (hproject : m.project qs outcome p = .ok m₁)
    (hexchange : m₁.exchangeOutcomes qs final outcome = .error fault) :
    m.collapse qs final outcome p = (.error fault, m₁) := by
  unfold collapse
  rw [hproject]
  dsimp only
  rw [hexchange]

theorem Lists.gives_collapse (h : m.Lists n qs) (hnodup : qs.Nodup)
    (hfinal : final < twoPow qs.length) (houtcome : outcome < twoPow qs.length)
    (hroom : RoomToMove qs final outcome) (hp : 0 < p) :
    exists m', m.collapse qs final outcome p = (.ok (), m') ∧
      m.Holds n (movedBlock qs final outcome p (m.store.data.toEntries n)) m' := by
  rcases h.gives_project hnodup houtcome hp with ⟨m₁, hm₁, hholds₁⟩
  rcases (h.of_holds hholds₁).gives_exchangeOutcomes hnodup hfinal houtcome hroom with
    ⟨m₂, hm₂, hholds₂⟩
  refine ⟨m₂, collapse_of_ok hm₁ hm₂, (hholds₁.trans hholds₂).congr ?_⟩
  intro r c hr hc
  have hlt : forall x, x < twoPow n -> swappedAt qs outcome final x < twoPow n :=
    fun x hx => overwrite_lt _ h.inside hx
  have hspelled : forall x, gather qs (swappedAt qs outcome final x) = outcome ↔
      gather qs x = final := by
    intro x
    rw [gather_swappedAt hnodup houtcome hfinal, swapped_eq_iff]
  have hmoved : forall x, gather qs x = final ->
      swappedAt qs outcome final x = overwrite qs x outcome := by
    intro x hx
    unfold swappedAt
    rw [swapped_eq_iff.mpr hx]
  rw [hholds₁.entries _ _ (hlt r hr) (hlt c hc)]
  unfold movedBlock
  by_cases hspell : gather qs r = final ∧ gather qs c = final
  · rw [if_pos ⟨(hspelled r).mpr hspell.1, (hspelled c).mpr hspell.2⟩, if_pos hspell,
      hmoved r hspell.1, hmoved c hspell.2]
  · rw [if_neg fun hboth => hspell ⟨(hspelled r).mp hboth.1, (hspelled c).mp hboth.2⟩,
      if_neg hspell]

theorem Lists.collapse_without_room (h : m.Lists n qs) (hnodup : qs.Nodup)
    (houtcome : outcome < twoPow qs.length) (hroom : ¬RoomToMove qs final outcome) (hp : 0 < p) :
    (m.collapse qs final outcome p).1 = crash := by
  rcases h.gives_project hnodup houtcome hp with ⟨m₁, hm₁, _⟩
  rw [collapse_of_error hm₁ (exchangeOutcomes_without_room hroom)]
  rfl

/-!
## Averages
-/

theorem sandwich_reset {d s i j : Nat} (hs : s < d) (f : Entries) :
    sandwich d (fun r a => if r = 0 ∧ a = s then 1 else 0) f i j =
      if i = 0 ∧ j = 0 then f s s else 0 := by
  have hterm : forall a b : Nat, (if i = 0 ∧ a = s then (1 : Amplitude ℝ) else 0) * f a b *
      (if j = 0 ∧ b = s then (1 : Amplitude ℝ) else 0).conj =
      if a = s then (if b = s then (if i = 0 ∧ j = 0 then f s s else 0) else 0) else 0 := by
    intro a b
    by_cases ha : a = s
    · by_cases hb : b = s
      · by_cases hi : i = 0
        · by_cases hj : j = 0
          · simp [ha, hb, hi, hj]
          · simp [hb, hi, hj]
        · simp [hi]
      · simp [hb]
    · simp [ha]
  have hrow : forall a, ∑ b ∈ Finset.range d, (if a = s then
      (if b = s then (if i = 0 ∧ j = 0 then f s s else 0) else 0) else 0) =
      if a = s then (if i = 0 ∧ j = 0 then f s s else 0) else 0 := by
    intro a
    by_cases ha : a = s
    · simp only [if_pos ha]
      exact sum_range_single hs fun _ => if i = 0 ∧ j = 0 then f s s else 0
    · simp only [if_neg ha, Finset.sum_const_zero]
  unfold sandwich
  simp only [hterm, hrow]
  exact sum_range_single hs fun _ => if i = 0 ∧ j = 0 then f s s else 0

theorem Lists.gives_applyReset (h : m.Lists n qs) (hnodup : qs.Nodup)
    (hfits : twoPow (4 * qs.length) * 16 < bufferLimit) :
    Gives (m.Holds n fun r c => if gather qs r = 0 ∧ gather qs c = 0 then
        ∑ o ∈ Finset.range (twoPow qs.length),
          m.store.data.toEntries n (overwrite qs r o) (overwrite qs c o) else 0)
      (m.applyReset qs) := by
  have hfew := lt_of_fits hfits
  rcases h.exists_applyReset hfew with ⟨columns, happly, hsize, hsuperop⟩
  rw [← twoPow_two_mul] at hsuperop
  rw [happly]
  rcases h.gives_onData hnodup (Kernel.actsAs_dense h.small hnodup h.inside (by omega)
    (le_of_eq hsize.symm)) hsuperop with ⟨m', hm', hholds⟩
  refine ⟨m', hm', hholds.congr ?_⟩
  intro r c _ _
  rw [krausSum_eq_channel]
  unfold channel resetOperators
  rw [List.map_map, sum_map_range]
  simp only [Function.comp_apply]
  rw [Finset.sum_congr rfl fun s hs => sandwich_reset (Finset.mem_range.mp hs) _]
  by_cases hzero : gather qs r = 0 ∧ gather qs c = 0
  · simp only [if_pos hzero]
    rfl
  · simp only [if_neg hzero, Finset.sum_const_zero]

theorem Lists.eq_zero_of_marginal (h : m.Lists n qs)
    (hρ : IsPositive (twoPow n) (m.store.data.toEntries n))
    (hnever : ¬0 < m.store.marginal qs outcome) {r c : Nat} (hr : r < twoPow n)
    (hc : c < twoPow n) (hspell : gather qs r = outcome) :
    m.store.data.toEntries n r c = 0 := by
  have hterms : forall x, x ∈ Finset.range (twoPow n) ->
      0 ≤ if gather qs x = outcome then (m.store.data.toEntries n x x).re else 0 := by
    intro x hx
    split
    · exact (hρ.isNonneg_diagonal (Finset.mem_range.mp hx)).2
    · exact le_refl 0
  have hbelow : (m.store.data.toEntries n r r).re ≤ m.store.marginal qs outcome := by
    have hsingle := Finset.single_le_sum hterms (Finset.mem_range.mpr hr)
    rw [if_pos hspell] at hsingle
    unfold Store.marginal
    rw [h.qubits]
    exact hsingle
  have hdiagonal := hρ.isNonneg_diagonal hr
  exact hρ.eq_zero_of_diagonal hr hc (Amplitude.ext
    (le_antisymm (hbelow.trans (not_lt.mp hnever)) hdiagonal.2) hdiagonal.1)

theorem Lists.weighted_collapse (h : m.Lists n qs) (hnodup : qs.Nodup)
    (hρ : IsPositive (twoPow n) (m.store.data.toEntries n)) (houtcome : outcome < twoPow qs.length)
    (hroom : RoomToMove qs 0 outcome) {r c : Nat} (hr : r < twoPow n) (hc : c < twoPow n)
    (hweight : m.store.marginal qs outcome = p) :
    (if 0 < p then ofReal p * (m.collapse qs 0 outcome p).2.store.data.toEntries n r c else 0) =
      if gather qs r = 0 ∧ gather qs c = 0 then
        m.store.data.toEntries n (overwrite qs r outcome) (overwrite qs c outcome) else 0 := by
  by_cases hp : 0 < p
  · rcases h.gives_collapse hnodup (twoPow_pos _) houtcome hroom hp with ⟨m', hm', hholds⟩
    have hcancel : ofReal p * ofReal p⁻¹ = 1 := by
      ext
      · simpa using mul_inv_cancel₀ (ne_of_gt hp)
      · simp
    rw [if_pos hp, hm', hholds.entries r c hr hc]
    unfold movedBlock
    rw [mul_ite, mul_zero, ← mul_assoc, hcancel, one_mul]
  · have hnever : ¬0 < m.store.marginal qs outcome := hweight ▸ hp
    rw [if_neg hp, h.eq_zero_of_marginal hρ hnever (overwrite_lt outcome h.inside hr)
      (overwrite_lt outcome h.inside hc) (gather_overwrite r hnodup houtcome), ite_self]

/-- Collapsing onto an outcome that can be drawn moves its block, divided by its probability,
if the matrix that moves it fits in memory.  A reset leaves the sum of what the collapses to
zero leave, each weighted by the probability of its outcome. -/
theorem reset_averages_collapses (h : m.Lists n qs) (hnodup : qs.Nodup) :
    exists weights, m.outcomeProbabilities qs = .ok weights ∧
      weights.length = twoPow qs.length ∧
      (forall outcome final, outcome < twoPow qs.length -> final < twoPow qs.length ->
        0 < weights.getD outcome 0 ->
        (RoomToMove qs final outcome ->
          exists m', m.collapse qs final outcome (weights.getD outcome 0) = (.ok (), m') ∧
            m.Holds n (movedBlock qs final outcome (weights.getD outcome 0)
              (m.store.data.toEntries n)) m') ∧
        (¬RoomToMove qs final outcome ->
          (m.collapse qs final outcome (weights.getD outcome 0)).1 = crash)) ∧
      (IsPositive (twoPow n) (m.store.data.toEntries n) ->
        twoPow (4 * qs.length) * 16 < bufferLimit ->
        Gives (m.Holds n fun r c =>
            ∑ o ∈ Finset.range (twoPow qs.length) with 0 < weights.getD o 0,
              ofReal (weights.getD o 0) *
                (m.collapse qs 0 o (weights.getD o 0)).2.store.data.toEntries n r c)
          (m.applyReset qs)) := by
  have hlen := length_le_of_nodup hnodup h.inside
  have hsmall : 2 * n < 64 := h.small
  have hweights : m.outcomeProbabilities qs =
      .ok ((List.range (twoPow qs.length)).map (m.store.marginal qs)) :=
    (outcomeProbabilities_eq_ok_iff h.width_eq fun q hq => h.width.symm ▸ h.inside q hq).mpr
      ⟨⟨h.store_lt, by rw [h.full, h.qubits, twoPow_two_mul], Or.inl (by omega)⟩, rfl⟩
  refine ⟨_, hweights, by rw [List.length_map, List.length_range], ?_, ?_⟩
  · intro outcome final houtcome hfinal hp
    exact ⟨fun hroom => h.gives_collapse hnodup hfinal houtcome hroom hp,
      fun hroom => h.collapse_without_room hnodup houtcome hroom hp⟩
  · intro hρ hfits
    have hroom : forall outcome, RoomToMove qs 0 outcome := by
      intro outcome
      have hfew := twoPow_mul_sixteen_lt_iff.mp hfits
      exact roomToMove_iff.mpr (Or.inr (by omega))
    rcases h.gives_applyReset hnodup hfits with ⟨m', hm', hholds⟩
    refine ⟨m', hm', hholds.congr ?_⟩
    intro r c hr hc
    rw [Finset.sum_filter, Finset.sum_congr rfl fun o ho =>
      h.weighted_collapse hnodup hρ (Finset.mem_range.mp ho) (hroom o) hr hc
        (getD_map_range (d := 0) (m.store.marginal qs) (Finset.mem_range.mp ho)).symm]
    by_cases hzero : gather qs r = 0 ∧ gather qs c = 0
    · simp only [if_pos hzero]
    · simp only [if_neg hzero, Finset.sum_const_zero]

theorem reset_averages_collapses_second :
    exists weights m',
      (ofStore ⟨2, 0, Buffer.tabulate 16 fun x =>
        if x = 10 then (1 : Amplitude ℝ) else 0⟩).outcomeProbabilities [1, 0] = .ok weights ∧
      (ofStore ⟨2, 0, Buffer.tabulate 16 fun x =>
        if x = 10 then (1 : Amplitude ℝ) else 0⟩).applyReset [1, 0] = .ok m' ∧
      m'.store.data.toEntries 2 0 0 =
        ∑ o ∈ Finset.range 4 with 0 < weights.getD o 0, ofReal (weights.getD o 0) *
          ((ofStore ⟨2, 0, Buffer.tabulate 16 fun x =>
            if x = 10 then (1 : Amplitude ℝ) else 0⟩).collapse [1, 0] 0 o
              (weights.getD o 0)).2.store.data.toEntries 2 0 0 := by
  have hlists : (ofStore ⟨2, 0, Buffer.tabulate 16 fun x =>
      if x = 10 then (1 : Amplitude ℝ) else 0⟩).Lists 2 [1, 0] :=
    ⟨⟨⟨rfl, rfl, Or.inl (Buffer.size_tabulate _ _)⟩, Buffer.size_tabulate _ _, by decide⟩,
      by decide⟩
  have hunit : ∑ i ∈ Finset.range 4, (if i = 2 then (1 : Amplitude ℝ) else 0) *
      (if i = 2 then (1 : Amplitude ℝ) else 0).conj = 1 := by
    simp
  have hpositive : IsPositive (twoPow 2) (Buffer.toEntries 2
      (Buffer.tabulate 16 fun x => if x = 10 then (1 : Amplitude ℝ) else 0)) := by
    apply (isDensity_outer hunit).toIsPositive.congr
    intro r c hr hc
    have hcell : r + c * 4 = 10 ↔ r = 2 ∧ c = 2 := by omega
    change (Buffer.tabulate 16 fun x => if x = 10 then (1 : Amplitude ℝ) else 0).entry
      (r + c * 4) = _
    rw [Buffer.entry_tabulate_of_lt _ (by omega), if_congr hcell rfl rfl, ite_and,
      Amplitude.conj_ite, Amplitude.conj_zero, Amplitude.conj_one, ite_mul, one_mul, zero_mul]
  rcases reset_averages_collapses hlists (by decide) with ⟨weights, hweights, _, _, hreset⟩
  rcases hreset hpositive (by decide) with ⟨m', hm', hholds⟩
  exact ⟨weights, m', hweights, hm', hholds.entries 0 0 (by decide) (by decide)⟩

end Machine

end MixedState
