import MixedState.Proofs.Density.Moves

/-!
# Operators that keep the trace

An operator that moves basis states along an involution and multiplies them by phases keeps
the trace of every buffer, whether or not its qubits repeat: a flip whose target is one of
its controls does nothing, and a Pauli string acts once on a qubit that it has two letters
for.
-/

namespace MixedState

open MixedState.Basis

noncomputable def Buffer.trace (n : Nat) (b : Buffer ℝ) : Amplitude ℝ :=
  ∑ r ∈ Finset.range (twoPow n), b.toEntries n r r

def Kernel.KeepsTrace (n : Nat) (kernel : Buffer ℝ -> Outcome (Buffer ℝ)) : Prop :=
  forall b : Buffer ℝ, b.size = twoPow (2 * n) ->
    exists b', kernel b = .ok b' ∧ b'.size = twoPow (2 * n) ∧ b'.trace n = b.trace n

variable {n : Nat} {qs : List Nat}

theorem Kernel.Moves.keepsTrace {π : Nat -> Nat} {φ : Nat -> Amplitude ℝ}
    {kernel : Buffer ℝ -> Outcome (Buffer ℝ)} (h : Moves n π φ kernel)
    (hπ : forall x, x < twoPow n -> π x < twoPow n)
    (hinvolution : forall x, x < twoPow n -> π (π x) = x)
    (hφ : forall x, x < twoPow n -> (φ x).IsPhase) : KeepsTrace n kernel := by
  have hbelow : forall x, x ∈ Finset.range (twoPow n) -> π x ∈ Finset.range (twoPow n) :=
    fun x hx => Finset.mem_range.mpr (hπ x (Finset.mem_range.mp hx))
  have hback : forall x, x ∈ Finset.range (twoPow n) -> π (π x) = x :=
    fun x hx => hinvolution x (Finset.mem_range.mp hx)
  intro b hb
  rcases h b hb with ⟨b', hkernel, hsize, hentry⟩
  refine ⟨b', hkernel, hsize.trans hb, ?_⟩
  apply Finset.sum_nbij' π π hbelow hbelow hback hback
  intro r hr
  have hr := Finset.mem_range.mp hr
  have hphase : φ r * (φ r).conj = 1 := hφ r hr
  change b'.entry (cell n r r) = b.entry (cell n (π r) (π r))
  rw [hentry r r hr hr, mul_right_comm, hphase, one_mul]

namespace Sided

variable {s : Sided}

theorem both_of_mem {controls : List Nat} {target : Nat} (hn : 2 * n < wordBits)
    (hqs : forall q, q ∈ controls ++ [target] -> q < n) (htarget : target ∈ controls)
    (hs : s.targetCount = 1) (b : Buffer ℝ) : s.both n (controls ++ [target]) b = .ok b := by
  have hstays : forall (onColumns : Bool) (f : Nat -> Amplitude ℝ -> Amplitude ℝ),
      Kernel.controlled (sideBits onColumns n (controls ++ [target])) f b = .ok b := by
    intro onColumns f
    rw [sideBits_append, sideBits_singleton]
    apply Kernel.controlled_of_mem f (mem_sideBits_iff.mpr htarget)
    exact sideBits_lt_wordBits hn fun q hq => hqs q (List.mem_append_left _ hq)
  have hkernel : forall onColumns,
      s.kernel onColumns (sideBits onColumns n (controls ++ [target])) b = .ok b := by
    intro onColumns
    cases s with
    | flip =>
        rw [kernel_flip]
        exact hstays onColumns _
    | flipY =>
        have hone := hstays onColumns fun x a =>
          yFactor onColumns (target + side onColumns n) x * a
        rw [sideBits_append, sideBits_singleton] at hone ⊢
        rw [kernel_flipY]
        exact hone
    | phase factor =>
        exact absurd hs (by change ¬0 = 1; decide)
  have hrows := hkernel false
  rw [sideBits_false] at hrows
  unfold both
  rw [hrows, ok_bind]
  exact hkernel true

theorem keepsTrace_flipped {controls : List Nat} {target : Nat} (hn : 2 * n < wordBits)
    (hqs : forall q, q ∈ controls ++ [target] -> q < n) (hs : s.targetCount = 1) :
    Kernel.KeepsTrace n (s.both n (controls ++ [target])) := by
  by_cases hmem : target ∈ controls
  · intro b hb
    exact ⟨b, both_of_mem hn hqs hmem hs b, hb, rfl⟩
  · have hcontrols : forall q, q ∈ controls -> q < n :=
      fun q hq => hqs q (List.mem_append_left _ hq)
    have htarget : target < n := hqs target (by simp)
    have hlt : forall x, x < twoPow n -> Kernel.flippedUnder controls target x < twoPow n :=
      fun x hx => Kernel.flippedUnder_lt htarget hx
    have hback : forall x, x < twoPow n -> Kernel.flippedUnder controls target
        (Kernel.flippedUnder controls target x) = x :=
      fun x _ => Kernel.flippedUnder_flippedUnder hmem x
    cases s with
    | phase factor =>
        exact absurd hs (by change ¬0 = 1; decide)
    | flip =>
        exact (flip_moves hn hmem hcontrols htarget).keepsTrace hlt hback
          fun _ _ => Amplitude.isPhase_one
    | flipY =>
        apply (flipY_moves hn hmem hcontrols htarget).keepsTrace hlt hback
        intro x _
        split
        · exact isPhase_yFactor target x
        · exact Amplitude.isPhase_one

theorem keepsTrace_both (hn : 2 * n < wordBits) (hqs : forall q, q ∈ qs -> q < n)
    (hfits : s.targetCount ≤ qs.length) (hs : s.IsUnitary) :
    Kernel.KeepsTrace n (s.both n qs) := by
  cases s with
  | phase factor =>
      apply (phase_moves factor hn hqs).keepsTrace (fun _ hx => hx) (fun _ _ => rfl)
      intro x _
      split
      · exact hs
      · exact Amplitude.isPhase_one
  | flip | flipY =>
      rcases List.eq_nil_or_concat qs with rfl | ⟨controls, target, hlist⟩
      · exact absurd hfits (Nat.not_succ_le_zero 0)
      · rw [List.concat_eq_append] at hlist
        rw [hlist] at hqs ⊢
        exact keepsTrace_flipped hn hqs rfl

end Sided

namespace Kernel

theorem keepsTrace_swap {p q : Nat} (hn : 2 * n < wordBits) (hp : p < n) (hq : q < n) :
    KeepsTrace n (swap n p q) :=
  (swap_moves hn hp hq).keepsTrace (fun _ hx => exchanged_lt hp hq hx)
    (fun x _ => exchanged_exchanged p q x) fun _ _ => Amplitude.isPhase_one

theorem keepsTrace_diagonalUnitary {entries : Buffer ℝ} (hn : 2 * n < wordBits)
    (hlen : 2 * qs.length ≤ wordBits) (hqs : forall q, q ∈ qs -> q < n)
    (hsize : entries.size = twoPow qs.length) (hphases : forall a, a ∈ entries -> a.IsPhase) :
    KeepsTrace n (diagonalUnitary n qs entries) := by
  apply (diagonalUnitary_moves hn hlen hqs hsize).keepsTrace (fun _ hx => hx) (fun _ _ => rfl)
  intro x _
  have hlt : gather qs x < entries.size := by
    rw [hsize]
    exact gather_lt qs x
  have hentry : entries.entry (gather qs x) = entries[gather qs x] := by
    simp [Buffer.entry, Array.getD, hlt]
  rw [hentry]
  exact hphases _ (Array.getElem_mem hlt)

/-- A qubit that is listed twice is flipped once by its X and Y, and signed once. -/
theorem keepsTrace_pauli {string : String} (hspells : Spells qs string) (hn : 2 * n < wordBits)
    (hqs : forall q, q ∈ qs -> q < n) :
    KeepsTrace n (pauli (bothSides n qs) (string ++ string) (ySign string)) := by
  have hflipped : forall q, q ∈ flipped qs string -> q < n :=
    fun q hq => hqs q (mem_of_mem_flipped hq)
  apply (pauli_moves hspells hn (List.nodup_dedup (signed qs string))
    (fun _ => List.mem_dedup) hqs).keepsTrace
  · exact fun x hx => xor_bitMask_lt hflipped hx
  · intro x _
    rw [Nat.xor_assoc, Nat.xor_self, Nat.xor_zero]
  · exact fun x _ => isPhase_signAt _ _

end Kernel

end MixedState
