import MixedState.Proofs.Exact
import MixedState.Proofs.Density.Operators

/-!
# Operators that move basis states

Flips, phases, diagonals, exchanges and Pauli strings take each row from one row and
multiply it by a factor, and do the same to columns with the conjugate factor.  Where row
and factor only depend on what listed qubits spell, this is the superoperator of a matrix
with one entry in each row.
-/

namespace MixedState

open MixedState.Basis

def sideCell (onColumns : Bool) (n fixed x : Nat) : Nat :=
  if onColumns then cell n fixed x else cell n x fixed

variable {onColumns : Bool} {n : Nat} {qs : List Nat} {b : Buffer ℝ}

theorem sideCell_lt {fixed x : Nat} (hfixed : fixed < twoPow n) (hx : x < twoPow n) :
    sideCell onColumns n fixed x < twoPow (2 * n) := by
  cases onColumns with
  | false =>
      exact cell_lt hx hfixed
  | true =>
      exact cell_lt hfixed hx

theorem Frame.ofSide {fixed : Nat} (hfixed : fixed < twoPow n) :
    Frame n (fun q => q + side onColumns n) (sideCell onColumns n fixed) := by
  cases onColumns with
  | false =>
      exact Frame.rows n fixed
  | true =>
      exact Frame.columns hfixed

namespace Kernel

def MovesSide (onColumns : Bool) (n : Nat) (π : Nat -> Nat) (φ : Nat -> Amplitude ℝ)
    (kernel : Buffer ℝ -> Outcome (Buffer ℝ)) : Prop :=
  forall b : Buffer ℝ, b.size = twoPow (2 * n) ->
    exists b', kernel b = .ok b' ∧ b'.size = b.size ∧
      forall fixed x, fixed < twoPow n -> x < twoPow n ->
        b'.entry (sideCell onColumns n fixed x) =
          φ x * b.entry (sideCell onColumns n fixed (π x))

/-- The kernel takes each entry from row `π r` and column `π c`, and multiplies it by the
phase of its row and the conjugate phase of its column. -/
def Moves (n : Nat) (π : Nat -> Nat) (φ : Nat -> Amplitude ℝ)
    (kernel : Buffer ℝ -> Outcome (Buffer ℝ)) : Prop :=
  forall b : Buffer ℝ, b.size = twoPow (2 * n) ->
    exists b', kernel b = .ok b' ∧ b'.size = b.size ∧
      forall r c, r < twoPow n -> c < twoPow n ->
        b'.entry (cell n r c) = φ r * b.entry (cell n (π r) (π c)) * (φ c).conj

theorem moves_of_movesSide {π : Nat -> Nat} {φ : Nat -> Amplitude ℝ}
    {rows columns : Buffer ℝ -> Outcome (Buffer ℝ)} (hrows : MovesSide false n π φ rows)
    (hcolumns : MovesSide true n π (fun x => (φ x).conj) columns)
    (hπ : forall x, x < twoPow n -> π x < twoPow n) :
    Moves n π φ fun b => rows b >>= columns := by
  intro b hb
  rcases hrows b hb with ⟨b', hb', hsize, hentry⟩
  rcases hcolumns b' (hsize.trans hb) with ⟨b'', hb'', hsize', hentry'⟩
  refine ⟨b'', bind_eq_ok_iff.mpr ⟨b', hb', hb''⟩, hsize'.trans hsize, ?_⟩
  intro r c hr hc
  have hrow : b'.entry (cell n r (π c)) = φ r * b.entry (cell n (π r) (π c)) :=
    hentry (π c) r (hπ c hc) hr
  have hcolumn : b''.entry (cell n r c) = (φ c).conj * b'.entry (cell n r (π c)) :=
    hentry' r c hr hc
  rw [hcolumn, hrow, mul_comm]

theorem moves_of_tabulate {π : Nat -> Nat} {φ : Nat -> Amplitude ℝ}
    {kernel : Buffer ℝ -> Outcome (Buffer ℝ)} {f : Buffer ℝ -> Nat -> Amplitude ℝ}
    (hkernel : forall b : Buffer ℝ, b.size = twoPow (2 * n) ->
      kernel b = .ok (Buffer.tabulate b.size (f b)))
    (hf : forall (b : Buffer ℝ) r c, r < twoPow n -> c < twoPow n ->
      f b (cell n r c) = φ r * b.entry (cell n (π r) (π c)) * (φ c).conj) :
    Moves n π φ kernel := by
  intro b hb
  refine ⟨_, hkernel b hb, Buffer.size_tabulate _ _, ?_⟩
  intro r c hr hc
  rw [Buffer.entry_tabulate_of_lt _ (by rw [hb]; exact cell_lt hr hc)]
  exact hf b r c hr hc

/-!
## Moves at listed bits
-/

/-- The listed bits decide where an index is moved and the phase that it gets; the map
`π₀` and the phases `φ₀` are those of the numbers that these bits spell. -/
structure IsSpelled (n : Nat) (qs : List Nat) (π : Nat -> Nat) (φ : Nat -> Amplitude ℝ)
    (π₀ : Nat -> Nat) (φ₀ : Nat -> Amplitude ℝ) : Prop where
  lt : forall a, a < twoPow qs.length -> π₀ a < twoPow qs.length
  move : forall x a, x < twoPow n -> a < twoPow qs.length ->
    π (overwrite qs x a) = overwrite qs x (π₀ a)
  phase : forall x a, x < twoPow n -> a < twoPow qs.length -> φ (overwrite qs x a) = φ₀ a

theorem sum_monomial {d a : Nat} {π : Nat -> Nat} (φ : Nat -> Amplitude ℝ) (hπ : π a < d)
    (f : Nat -> Amplitude ℝ) :
    ∑ j ∈ Finset.range d, monomial π φ a j * f j = φ a * f (π a) := by
  rw [← sum_range_single hπ fun j => φ a * f j]
  apply Finset.sum_congr rfl
  intro j _
  unfold monomial
  rw [ite_mul, zero_mul]

theorem sum_conj_monomial {d a : Nat} {π : Nat -> Nat} (φ : Nat -> Amplitude ℝ) (hπ : π a < d)
    (f : Nat -> Amplitude ℝ) :
    ∑ j ∈ Finset.range d, (monomial π φ a j).conj * f j = (φ a).conj * f (π a) := by
  rw [← sum_monomial (fun x => (φ x).conj) hπ]
  apply Finset.sum_congr rfl
  intro j _
  unfold monomial
  rw [Amplitude.conj_ite, Amplitude.conj_zero]

theorem Moves.actsAs {π π₀ : Nat -> Nat} {φ φ₀ : Nat -> Amplitude ℝ}
    {kernel : Buffer ℝ -> Outcome (Buffer ℝ)} (h : Moves n π φ kernel) (hnodup : qs.Nodup)
    (hqs : forall q, q ∈ qs -> q < n) (hspelled : IsSpelled n qs π φ π₀ φ₀) :
    ActsAs n qs (superopOf (twoPow qs.length) (monomial π₀ φ₀)) kernel := by
  have hplace : forall x, x < twoPow n ->
      π x = overwrite qs x (π₀ (gather qs x)) ∧ φ x = φ₀ (gather qs x) := by
    intro x hx
    have hmove := hspelled.move x (gather qs x) hx (gather_lt qs x)
    have hphase := hspelled.phase x (gather qs x) hx (gather_lt qs x)
    rw [overwrite_gather x hnodup] at hmove hphase
    exact ⟨hmove, hphase⟩
  apply actsAs_of_cells
  intro b hb
  rcases h b hb with ⟨b', hkernel, hsize, hentry⟩
  refine ⟨b', hkernel, hsize, ?_⟩
  intro r c hr hc
  have hrow := hspelled.lt _ (gather_lt qs r)
  have hcolumn := hspelled.lt _ (gather_lt qs c)
  have hinner : forall j, ∑ i ∈ Finset.range (twoPow qs.length),
      superopOf (twoPow qs.length) (monomial π₀ φ₀)
          (gather qs r + twoPow qs.length * gather qs c) (i + twoPow qs.length * j) *
        b.entry (cell n (overwrite qs r i) (overwrite qs c j)) =
      (monomial π₀ φ₀ (gather qs c) j).conj *
        (φ r * b.entry (cell n (π r) (overwrite qs c j))) := by
    intro j
    rw [(hplace r hr).1, (hplace r hr).2,
      ← sum_monomial φ₀ hrow fun i => b.entry (cell n (overwrite qs r i) (overwrite qs c j)),
      Finset.mul_sum]
    apply Finset.sum_congr rfl
    intro i hi
    rw [superopOf_apply _ (gather_lt qs r) (Finset.mem_range.mp hi), mul_assoc]
  rw [hentry r c hr hc, act_bothSides hnodup hqs hr hc]
  simp only [hinner]
  rw [sum_conj_monomial φ₀ hcolumn fun j => φ r * b.entry (cell n (π r) (overwrite qs c j)),
    ← (hplace c hc).1, ← (hplace c hc).2, mul_comm]

/-!
## Controlled flips
-/

def flippedUnder (controls : List Nat) (target x : Nat) : Nat :=
  if covers (bitMask controls) x then x ^^^ twoPow target else x

theorem flippedUnder_lt {controls : List Nat} {target x : Nat} (htarget : target < n)
    (hx : x < twoPow n) : flippedUnder controls target x < twoPow n := by
  unfold flippedUnder
  split
  · exact xor_twoPow_lt htarget hx
  · exact hx

theorem flippedUnder_flippedUnder {controls : List Nat} {target : Nat}
    (hnot : target ∉ controls) (x : Nat) :
    flippedUnder controls target (flippedUnder controls target x) = x := by
  have hsame : covers (bitMask controls) (x ^^^ twoPow target) = covers (bitMask controls) x := by
    rw [Bool.eq_iff_iff, covers_bitMask_iff, covers_bitMask_iff]
    have hbit : forall q, q ∈ controls -> (x ^^^ twoPow target).testBit q = x.testBit q := by
      intro q hq
      have hne : ¬target = q := fun h => hnot (h ▸ hq)
      rw [Nat.testBit_xor, testBit_twoPow, decide_eq_false hne, Bool.xor_false]
    constructor
    · intro h q hq
      rw [← hbit q hq]
      exact h q hq
    · intro h q hq
      rw [hbit q hq]
      exact h q hq
  unfold flippedUnder
  by_cases hcovers : covers (bitMask controls) x = true
  · rw [if_pos hcovers, hsame, if_pos hcovers, Nat.xor_assoc, Nat.xor_self, Nat.xor_zero]
  · rw [if_neg hcovers, if_neg hcovers]

theorem flippedUnder_map {m target x : Nat} {move embed : Nat -> Nat} {controls : List Nat}
    (frame : Frame m move embed) (hcontrols : forall q, q ∈ controls -> q < m)
    (htarget : target < m) (hx : x < twoPow m) :
    flippedUnder (controls.map move) (move target) (embed x) =
      embed (flippedUnder controls target x) := by
  unfold flippedUnder
  rw [frame.covers_map hcontrols hx, apply_ite embed, frame.xor_twoPow_move htarget hx]

theorem movesSide_controlled {controls : List Nat} {target : Nat}
    {f : Nat -> Amplitude ℝ -> Amplitude ℝ} {γ : Nat -> Amplitude ℝ} (hn : 2 * n < wordBits)
    (hnot : target ∉ controls) (hcontrols : forall q, q ∈ controls -> q < n)
    (htarget : target < n)
    (hf : forall fixed x a, fixed < twoPow n -> x < twoPow n ->
      f (sideCell onColumns n fixed x) a = γ x * a) :
    MovesSide onColumns n (flippedUnder controls target)
      (fun x => if covers (bitMask controls) x then γ x else 1)
      (controlled (sideBits onColumns n (controls ++ [target])) f) := by
  intro b hb
  have hside := side_le onColumns n
  have hbits : forall p, p ∈ sideBits onColumns n controls -> p < wordBits :=
    sideBits_lt_wordBits hn hcontrols
  have hkernel := controlled_eq_ok (b := b) f (fun hmem => hnot (mem_sideBits_iff.mp hmem)) hbits
    (t := target + side onColumns n) (n := 2 * n) (by omega) (by omega) hb
  refine ⟨_, by rw [sideBits_append]; exact hkernel, Buffer.size_tabulate _ _, ?_⟩
  intro fixed x hfixed hx
  have hframe : Frame n (fun q => q + side onColumns n) (sideCell onColumns n fixed) :=
    Frame.ofSide hfixed
  have hcovers : covers (bitMask (sideBits onColumns n controls)) (sideCell onColumns n fixed x) =
      covers (bitMask controls) x := hframe.covers_map hcontrols hx
  rw [Buffer.entry_tabulate_of_lt _ (by rw [hb]; exact sideCell_lt hfixed hx), hcovers,
    ← hframe.xor_twoPow_move htarget hx]
  unfold flippedUnder
  by_cases hmet : covers (bitMask controls) x = true
  · simp only [if_pos hmet]
    exact hf fixed x _ hfixed hx
  · simp only [if_neg hmet, one_mul]

theorem movesSide_phase (onColumns : Bool) (factor : Amplitude ℝ) (hn : 2 * n < wordBits)
    (hqs : forall q, q ∈ qs -> q < n) :
    MovesSide onColumns n id (fun x => if covers (bitMask qs) x then factor else 1)
      (phase (sideBits onColumns n qs) factor) := by
  intro b hb
  have hbits : forall p, p ∈ sideBits onColumns n qs -> p < wordBits := sideBits_lt_wordBits hn hqs
  refine ⟨_, phase_eq_ok factor hbits, Buffer.size_tabulate _ _, ?_⟩
  intro fixed x hfixed hx
  have hframe : Frame n (fun q => q + side onColumns n) (sideCell onColumns n fixed) :=
    Frame.ofSide hfixed
  have hcovers : covers (bitMask (sideBits onColumns n qs)) (sideCell onColumns n fixed x) =
      covers (bitMask qs) x := hframe.covers_map hqs hx
  rw [Buffer.entry_tabulate_of_lt _ (by rw [hb]; exact sideCell_lt hfixed hx), hcovers, id]
  by_cases hmet : covers (bitMask qs) x = true
  · simp only [if_pos hmet, mul_comm]
  · simp only [if_neg hmet, one_mul]

end Kernel

/-!
## Operators under controls
-/

namespace Sided

theorem yFactor_true (target x : Nat) :
    yFactor true target x = (yFactor false target x).conj := by
  unfold yFactor
  cases x.testBit target
  · simp
  · simp

theorem isPhase_yFactor (target x : Nat) : (yFactor false target x).IsPhase := by
  have hunit : (Amplitude.unit : Amplitude ℝ).IsPhase := by
    rw [Amplitude.isPhase_iff]
    simp
  unfold yFactor
  cases x.testBit target
  · exact hunit.neg
  · exact hunit

def IsUnitary : Sided -> Prop
  | phase factor => factor.IsPhase
  | _ => True

theorem flip_moves {controls : List Nat} {target : Nat} (hn : 2 * n < wordBits)
    (hnot : target ∉ controls) (hcontrols : forall q, q ∈ controls -> q < n)
    (htarget : target < n) :
    Kernel.Moves n (Kernel.flippedUnder controls target) (fun _ => 1)
      (flip.both n (controls ++ [target])) := by
  have hmoves : forall onColumns, Kernel.MovesSide onColumns n
      (Kernel.flippedUnder controls target) (fun _ => 1)
      (flip.kernel onColumns (sideBits onColumns n (controls ++ [target]))) := by
    intro onColumns
    have hside : Kernel.MovesSide onColumns n (Kernel.flippedUnder controls target)
        (fun x => if covers (bitMask controls) x then 1 else 1)
        (Kernel.controlled (sideBits onColumns n (controls ++ [target])) fun _ a => a) :=
      Kernel.movesSide_controlled hn hnot hcontrols htarget fun _ _ a _ _ => (one_mul a).symm
    simp only [ite_self] at hside
    rw [kernel_flip]
    exact hside
  have hrows := hmoves false
  rw [sideBits_false] at hrows
  exact Kernel.moves_of_movesSide hrows (by simpa using hmoves true)
    fun x hx => Kernel.flippedUnder_lt htarget hx

theorem flipY_moves {controls : List Nat} {target : Nat} (hn : 2 * n < wordBits)
    (hnot : target ∉ controls) (hcontrols : forall q, q ∈ controls -> q < n)
    (htarget : target < n) :
    Kernel.Moves n (Kernel.flippedUnder controls target)
      (fun x => if covers (bitMask controls) x then yFactor false target x else 1)
      (flipY.both n (controls ++ [target])) := by
  have hmoves : forall onColumns, Kernel.MovesSide onColumns n
      (Kernel.flippedUnder controls target)
      (fun x => if covers (bitMask controls) x then yFactor onColumns target x else 1)
      (flipY.kernel onColumns (sideBits onColumns n (controls ++ [target]))) := by
    intro onColumns
    rw [sideBits_append, sideBits_singleton, kernel_flipY, ← sideBits_singleton, ← sideBits_append]
    apply Kernel.movesSide_controlled hn hnot hcontrols htarget
    intro fixed x a hfixed hx
    have hframe : Frame n (fun q => q + side onColumns n) (sideCell onColumns n fixed) :=
      Frame.ofSide hfixed
    have hbit := hframe.bit target x htarget hx
    unfold yFactor
    rw [hbit]
  have hrows := hmoves false
  have hcolumns := hmoves true
  simp only [yFactor_true] at hcolumns
  rw [sideBits_false] at hrows
  exact Kernel.moves_of_movesSide hrows
    (by simpa only [Amplitude.conj_ite, Amplitude.conj_one] using hcolumns)
    fun x hx => Kernel.flippedUnder_lt htarget hx

theorem phase_moves (factor : Amplitude ℝ) (hn : 2 * n < wordBits)
    (hqs : forall q, q ∈ qs -> q < n) :
    Kernel.Moves n id (fun x => if covers (bitMask qs) x then factor else 1)
      ((phase factor).both n qs) := by
  have hrows := Kernel.movesSide_phase false factor hn hqs
  have hcolumns : Kernel.MovesSide true n id
      (fun x => (if covers (bitMask qs) x then factor else 1).conj)
      ((phase factor).kernel true (sideBits true n qs)) := by
    simp only [Amplitude.conj_ite, Amplitude.conj_one]
    exact Kernel.movesSide_phase true factor.conj hn hqs
  rw [sideBits_false] at hrows
  exact Kernel.moves_of_movesSide hrows hcolumns fun _ hx => hx

noncomputable def matrix (k : Nat) : Sided -> Entries
  | flip => monomial (Kernel.flippedUnder (List.range (k - 1)) (k - 1)) fun _ => 1
  | flipY => monomial (Kernel.flippedUnder (List.range (k - 1)) (k - 1)) fun x =>
      if covers (bitMask (List.range (k - 1))) x then yFactor false (k - 1) x else 1
  | phase factor => monomial id fun x => if covers (bitMask (List.range k)) x then factor else 1

theorem not_mem_range_self (k : Nat) : k ∉ List.range k :=
  fun h => Nat.lt_irrefl k (List.mem_range.mp h)

theorem isComplete_matrix {k : Nat} {s : Sided} (hfits : s.targetCount ≤ k) (hs : s.IsUnitary) :
    IsComplete (twoPow k) [s.matrix k] := by
  cases s with
  | flip =>
      have htarget : k - 1 < k := Nat.sub_lt hfits Nat.zero_lt_one
      exact isComplete_monomial (fun x hx => Kernel.flippedUnder_lt htarget hx)
        (fun x _ => Kernel.flippedUnder_flippedUnder (not_mem_range_self _) x)
        fun _ _ => Amplitude.isPhase_one
  | flipY =>
      have htarget : k - 1 < k := Nat.sub_lt hfits Nat.zero_lt_one
      refine isComplete_monomial (fun x hx => Kernel.flippedUnder_lt htarget hx)
        (fun x _ => Kernel.flippedUnder_flippedUnder (not_mem_range_self _) x) ?_
      intro x _
      split
      · exact isPhase_yFactor _ x
      · exact Amplitude.isPhase_one
  | phase factor =>
      refine isComplete_monomial (fun _ hx => hx) (fun _ _ => rfl) ?_
      intro x _
      split
      · exact hs
      · exact Amplitude.isPhase_one

theorem exists_target (hlen : 1 ≤ qs.length) (hnodup : qs.Nodup)
    (hqs : forall q, q ∈ qs -> q < n) :
    exists move : Nat -> Nat, (forall x, Frame qs.length move (overwrite qs x)) ∧
      qs = (List.range (qs.length - 1)).map move ++ [move (qs.length - 1)] ∧
      move (qs.length - 1) ∉ (List.range (qs.length - 1)).map move ∧
      (forall q, q ∈ (List.range (qs.length - 1)).map move -> q < n) ∧
      move (qs.length - 1) < n := by
  have hsucc : qs.length - 1 + 1 = qs.length := Nat.sub_add_cancel hlen
  have hlist : qs = (List.range (qs.length - 1)).map (fun j => qs.getD j 0) ++
      [qs.getD (qs.length - 1) 0] := by
    have hmap := map_getD_range qs
    rw [← hsucc, List.range_succ, List.map_append] at hmap
    exact hmap.symm
  refine ⟨fun j => qs.getD j 0, fun x => Frame.listed x hnodup, hlist, ?_, ?_, ?_⟩
  · intro hmem
    rw [hlist] at hnodup
    exact (List.nodup_append.mp hnodup).2.2 _ hmem _ (List.mem_singleton_self _) rfl
  · intro q hq
    apply hqs
    rw [hlist]
    exact List.mem_append_left _ hq
  · exact hqs _ (List.mem_of_getElem? (getElem?_getD (Nat.sub_lt hlen Nat.zero_lt_one)))

theorem actsAs_both {s : Sided} (hn : 2 * n < wordBits) (hnodup : qs.Nodup)
    (hqs : forall q, q ∈ qs -> q < n) (hfits : s.targetCount ≤ qs.length) :
    Kernel.ActsAs n qs (Kernel.superopOf (twoPow qs.length) (s.matrix qs.length))
      (s.both n qs) := by
  have hrange : forall {k q : Nat}, k ≤ qs.length -> q ∈ List.range k -> q < qs.length :=
    fun hk hq => Nat.lt_of_lt_of_le (List.mem_range.mp hq) hk
  have hpred : qs.length - 1 ≤ qs.length := Nat.sub_le _ _
  cases s with
  | phase factor =>
      refine (phase_moves factor hn hqs).actsAs hnodup hqs ⟨fun _ ha => ha, fun _ _ _ _ => rfl, ?_⟩
      intro x a _ ha
      have hcovers := (Frame.listed x hnodup).covers_map (fun q => hrange (Nat.le_refl _)) ha
      rw [map_getD_range] at hcovers
      rw [hcovers]
  | flip =>
      rcases exists_target hfits hnodup hqs with
        ⟨move, hframe, hlist, hnot, hcontrols, htarget⟩
      have hlast : qs.length - 1 < qs.length := Nat.sub_lt hfits Nat.zero_lt_one
      have hmoves := flip_moves hn hnot hcontrols htarget
      rw [← hlist] at hmoves
      refine hmoves.actsAs hnodup hqs ⟨?_, ?_, fun _ _ _ _ => rfl⟩
      · exact fun a ha => Kernel.flippedUnder_lt hlast ha
      · exact fun x a _ ha =>
          Kernel.flippedUnder_map (hframe x) (fun q => hrange hpred) hlast ha
  | flipY =>
      rcases exists_target hfits hnodup hqs with
        ⟨move, hframe, hlist, hnot, hcontrols, htarget⟩
      have hlast : qs.length - 1 < qs.length := Nat.sub_lt hfits Nat.zero_lt_one
      have hmoves := flipY_moves hn hnot hcontrols htarget
      rw [← hlist] at hmoves
      refine hmoves.actsAs hnodup hqs ⟨?_, ?_, ?_⟩
      · exact fun a ha => Kernel.flippedUnder_lt hlast ha
      · exact fun x a _ ha =>
          Kernel.flippedUnder_map (hframe x) (fun q => hrange hpred) hlast ha
      · intro x a _ ha
        rw [(hframe x).covers_map (fun q => hrange hpred) ha]
        unfold yFactor
        rw [(hframe x).bit _ a hlast ha]

end Sided

/-!
## Exchanges, diagonals and strings
-/

namespace Kernel

def exchanged (p q x : Nat) : Nat :=
  if x.testBit p == x.testBit q then x else x ^^^ twoPow p ^^^ twoPow q

theorem exchanged_lt {p q x : Nat} (hp : p < n) (hq : q < n) (hx : x < twoPow n) :
    exchanged p q x < twoPow n := by
  unfold exchanged
  split
  · exact hx
  · exact xor_twoPow_lt hq (xor_twoPow_lt hp hx)

theorem exchanged_exchanged (p q x : Nat) : exchanged p q (exchanged p q x) = x := by
  unfold exchanged
  by_cases hsame : (x.testBit p == x.testBit q) = true
  · rw [if_pos hsame, if_pos hsame]
  · have hne : ¬p = q := by
      rintro rfl
      exact hsame (beq_self_eq_true _)
    have hdiffer : ¬((x ^^^ twoPow p ^^^ twoPow q).testBit p ==
        (x ^^^ twoPow p ^^^ twoPow q).testBit q) = true := by
      have hne' : ¬q = p := fun h => hne h.symm
      simp only [Nat.testBit_xor, testBit_twoPow, decide_eq_false hne, decide_eq_false hne',
        decide_true, Bool.xor_false]
      intro h
      apply hsame
      cases hp : x.testBit p <;> cases hq : x.testBit q <;> simp_all
    rw [if_neg hsame, if_neg hdiffer]
    apply Nat.eq_of_testBit_eq
    intro i
    simp only [Nat.testBit_xor]
    cases x.testBit i <;> cases (twoPow p).testBit i <;> cases (twoPow q).testBit i <;> rfl

theorem movesSide_exchange (onColumns : Bool) {p q : Nat} (hn : 2 * n < wordBits) (hp : p < n)
    (hq : q < n) :
    MovesSide onColumns n (exchanged p q) (fun _ => 1)
      (exchange (p + side onColumns n) (q + side onColumns n)) := by
  intro b hb
  have hside := side_le onColumns n
  refine ⟨_, exchange_eq_ok (n := 2 * n) (by omega) (by omega) (by omega) hb,
    Buffer.size_tabulate _ _, ?_⟩
  intro fixed x hfixed hx
  have hframe : Frame n (fun q => q + side onColumns n) (sideCell onColumns n fixed) :=
    Frame.ofSide hfixed
  rw [Buffer.entry_tabulate_of_lt _ (by rw [hb]; exact sideCell_lt hfixed hx), one_mul]
  change (if (sideCell onColumns n fixed x).testBit (p + side onColumns n) ==
    (sideCell onColumns n fixed x).testBit (q + side onColumns n) then _ else _) = _
  rw [hframe.bit p x hp hx, hframe.bit q x hq hx, ← hframe.xor_twoPow_move hp hx,
    ← hframe.xor_twoPow_move hq (xor_twoPow_lt hp hx)]
  unfold exchanged
  split
  · rfl
  · rfl

theorem exchanged_map {m p q x : Nat} {move embed : Nat -> Nat} (frame : Frame m move embed)
    (hp : p < m) (hq : q < m) (hx : x < twoPow m) :
    exchanged (move p) (move q) (embed x) = embed (exchanged p q x) := by
  unfold exchanged
  rw [frame.bit p x hp hx, frame.bit q x hq hx, apply_ite embed,
    frame.xor_twoPow_move hq (xor_twoPow_lt hp hx), frame.xor_twoPow_move hp hx]

theorem swap_moves {p q : Nat} (hn : 2 * n < wordBits) (hp : p < n) (hq : q < n) :
    Moves n (exchanged p q) (fun _ => 1) (swap n p q) := by
  have hcolumns : MovesSide true n (exchanged p q) (fun _ => (1 : Amplitude ℝ).conj)
      (exchange (p + n) (q + n)) := by
    rw [Amplitude.conj_one]
    exact movesSide_exchange true hn hp hq
  exact moves_of_movesSide (movesSide_exchange false hn hp hq) hcolumns
    fun x hx => exchanged_lt hp hq hx

theorem actsAs_swap {p q : Nat} (hn : 2 * n < wordBits) (hnodup : [p, q].Nodup)
    (hqs : forall i, i ∈ [p, q] -> i < n) :
    ActsAs n [p, q] (superopOf (twoPow 2) (monomial (exchanged 0 1) fun _ => 1)) (swap n p q) := by
  have hmoves := swap_moves hn (hqs p (by simp)) (hqs q (by simp))
  refine hmoves.actsAs hnodup hqs ⟨?_, ?_, fun _ _ _ _ => rfl⟩
  · exact fun a ha => exchanged_lt Nat.zero_lt_two Nat.one_lt_two ha
  · exact fun x a _ ha =>
      exchanged_map (Frame.listed x hnodup) Nat.zero_lt_two Nat.one_lt_two ha

theorem isComplete_swap : IsComplete (twoPow 2) [monomial (exchanged 0 1) fun _ => 1] :=
  isComplete_monomial (fun _ hx => exchanged_lt Nat.zero_lt_two Nat.one_lt_two hx)
    (fun x _ => exchanged_exchanged 0 1 x) fun _ _ => Amplitude.isPhase_one

theorem diagonalUnitary_moves {entries : Buffer ℝ} (hn : 2 * n < wordBits)
    (hlen : 2 * qs.length ≤ wordBits) (hqs : forall q, q ∈ qs -> q < n)
    (hsize : entries.size = twoPow qs.length) :
    Moves n id (fun x => entries.entry (gather qs x)) (diagonalUnitary n qs entries) := by
  have htensor : twoPow (bothSides n qs).length ≤ (entries.conj.tensor entries).size := by
    rw [length_bothSides, twoPow_two_mul, Buffer.size_tensor, Buffer.size_conj, hsize]
  refine moves_of_tabulate (fun b _ => diagonal_eq_ok (bothSides_lt_wordBits hn hqs)
    (by rw [length_bothSides]; exact hlen) htensor) ?_
  intro b r c hr hc
  have hrows : gather (sideBits false n qs) (cell n r c) = gather qs r :=
    gather_sideBits_cell hqs hr hc
  have hcolumns : gather (sideBits true n qs) (cell n r c) = gather qs c :=
    gather_sideBits_cell hqs hr hc
  rw [sideBits_false] at hrows
  unfold bothSides
  rw [Buffer.entry_tensor_gather hsize (by rw [Buffer.size_conj, hsize, length_sideBits]),
    Buffer.entry_conj, hrows, hcolumns, id, id]
  ring

theorem actsAs_diagonalUnitary {entries : Buffer ℝ} (hn : 2 * n < wordBits) (hnodup : qs.Nodup)
    (hqs : forall q, q ∈ qs -> q < n) (hsize : entries.size = twoPow qs.length) :
    ActsAs n qs (superopOf (twoPow qs.length) (monomial id entries.entry))
      (diagonalUnitary n qs entries) := by
  have hlen : qs.length ≤ n := length_le_of_nodup hnodup hqs
  refine (diagonalUnitary_moves hn (by omega) hqs hsize).actsAs hnodup hqs
    ⟨fun _ ha => ha, fun _ _ _ _ => rfl, ?_⟩
  intro x a _ ha
  rw [gather_overwrite x hnodup ha]

theorem isPhase_signAt (qs : List Nat) (x : Nat) : (signAt qs x).IsPhase := by
  unfold Amplitude.IsPhase
  rw [conj_signAt, signAt_mul_self]

theorem cell_xor_bothSides {r c : Nat} (hqs : forall q, q ∈ qs -> q < n) (hr : r < twoPow n)
    (hc : c < twoPow n) :
    cell n r c ^^^ bitMask (bothSides n qs) = cell n (r ^^^ bitMask qs) (c ^^^ bitMask qs) := by
  have hrow : r ^^^ bitMask qs < twoPow n := xor_bitMask_lt hqs hr
  have hrows := (Frame.rows n c).xor_bitMask_map hqs hr
  have hcolumns := (Frame.columns hrow).xor_bitMask_map hqs hc
  rw [List.map_id] at hrows
  rw [hcolumns, hrows, Nat.xor_assoc]
  congr 1
  apply Nat.eq_of_testBit_eq
  intro i
  have hdisjoint : i ∈ qs -> i ∉ sideBits true n qs := by
    intro hi hside
    rcases List.mem_map.mp hside with ⟨q, _, hq⟩
    have hlt := hqs i hi
    change q + n = i at hq
    omega
  change _ = (bitMask qs ^^^ bitMask (sideBits true n qs)).testBit i
  rw [Nat.testBit_xor, testBit_bitMask, testBit_bitMask, testBit_bitMask]
  by_cases hi : i ∈ qs
  · simp [bothSides, hi, hdisjoint hi]
  · simp [bothSides, hi]

theorem signAt_bothSides_cell {r c : Nat} (hqs : forall q, q ∈ qs -> q < n) (hr : r < twoPow n)
    (hc : c < twoPow n) :
    signAt (bothSides n qs) (cell n r c) = signAt qs r * signAt qs c := by
  have hrows := (Frame.rows n c).countP_map hqs hr
  have hcolumns := (Frame.columns hr).countP_map hqs hc
  rw [List.map_id] at hrows
  have hside : forall ps x y, List.countP (Nat.testBit x) ps = List.countP (Nat.testBit y) qs ->
      signAt ps x = signAt qs y := by
    intro ps x y h
    unfold signAt
    rw [h]
  unfold bothSides
  rw [signAt_append, hside _ _ _ hrows]
  congr 1
  exact hside _ _ _ hcolumns

theorem pauli_moves {string : String} {zs : List Nat} (hspells : Spells qs string)
    (hn : 2 * n < wordBits) (hnodup : zs.Nodup) (hzs : forall q, q ∈ zs ↔ q ∈ signed qs string)
    (hqs : forall q, q ∈ qs -> q < n) :
    Moves n (fun x => x ^^^ bitMask (flipped qs string))
      (fun x => signAt zs (x ^^^ bitMask (flipped qs string)))
      (pauli (bothSides n qs) (string ++ string) (ySign string)) := by
  have hflipped : forall q, q ∈ flipped qs string -> q < n :=
    fun q hq => hqs q (mem_of_mem_flipped hq)
  have hsigned : forall q, q ∈ zs -> q < n :=
    fun q hq => hqs q (mem_of_mem_signed ((hzs q).mp hq))
  have hflip : forall x, x < twoPow n -> x ^^^ bitMask (flipped qs string) < twoPow n :=
    fun x hx => xor_bitMask_lt hflipped hx
  refine moves_of_tabulate (fun b hb => pauli_eq_ok_of_mem hspells hnodup hzs hqs hn hb) ?_
  intro b r c hr hc
  rw [cell_xor_bothSides hflipped hr hc, signAt_bothSides_cell hsigned (hflip r hr) (hflip c hc),
    conj_signAt]
  ring

noncomputable def pauliEntries (k : Nat) (string : String) : Entries :=
  monomial (fun x => x ^^^ bitMask (flipped (List.range k) string)) fun x =>
    signAt (signed (List.range k) string) (x ^^^ bitMask (flipped (List.range k) string))

theorem isComplete_pauliEntries (k : Nat) (string : String) :
    IsComplete (twoPow k) [pauliEntries k string] := by
  have hflipped : forall q, q ∈ flipped (List.range k) string -> q < k :=
    fun q hq => List.mem_range.mp (mem_of_mem_flipped hq)
  refine isComplete_monomial (fun x hx => xor_bitMask_lt hflipped hx) ?_
    fun x _ => isPhase_signAt _ _
  intro x _
  rw [Nat.xor_assoc, Nat.xor_self, Nat.xor_zero]

theorem actsAs_pauli {string : String} (hspells : Spells qs string) (hn : 2 * n < wordBits)
    (hnodup : qs.Nodup) (hqs : forall q, q ∈ qs -> q < n) :
    ActsAs n qs (superopOf (twoPow qs.length) (pauliEntries qs.length string))
      (pauli (bothSides n qs) (string ++ string) (ySign string)) := by
  have hflipped : forall q, q ∈ flipped (List.range qs.length) string -> q < qs.length :=
    fun q hq => List.mem_range.mp (mem_of_mem_flipped hq)
  have hsigned : forall q, q ∈ signed (List.range qs.length) string -> q < qs.length :=
    fun q hq => List.mem_range.mp (mem_of_mem_signed hq)
  have hmapFlipped : flipped qs string =
      (flipped (List.range qs.length) string).map fun j => qs.getD j 0 := by
    rw [← flipped_map, map_getD_range]
  have hmapSigned : signed qs string =
      (signed (List.range qs.length) string).map fun j => qs.getD j 0 := by
    rw [← signed_map, map_getD_range]
  have hmoves := pauli_moves hspells hn (hspells.nodup_signed hnodup) (fun _ => Iff.rfl) hqs
  refine hmoves.actsAs hnodup hqs ⟨?_, ?_, ?_⟩
  · exact fun a ha => xor_bitMask_lt hflipped ha
  · intro x a _ ha
    rw [hmapFlipped, (Frame.listed x hnodup).xor_bitMask_map hflipped ha]
  · intro x a _ ha
    rw [hmapFlipped, hmapSigned, ← (Frame.listed x hnodup).xor_bitMask_map hflipped ha]
    unfold signAt
    rw [(Frame.listed x hnodup).countP_map hsigned (xor_bitMask_lt hflipped ha)]

end Kernel

end MixedState
