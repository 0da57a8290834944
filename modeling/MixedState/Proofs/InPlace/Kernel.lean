import Mathlib.Data.Nat.Bitwise
import MixedState.InPlace.Kernel
import MixedState.Proofs.Basis.Spread
import MixedState.Proofs.Density.Kernel

/-!
# Kernels that write in place

A sweep comes to each entry at one step only, which reads no entry that an earlier step
has written.  So it leaves what the kernel on the whole buffer gives, from the old
entries.
-/

namespace MixedState

open MixedState.Basis

namespace Kernel
namespace InPlace

variable {R : Type} [Scalar R] {b : Buffer R}

theorem read_eq_ok {i : Nat} (h : i < b.size) : read b i = .ok (b.entry i) := by
  unfold read
  rw [orCrash_of_true (decide_eq_true h)]
  rfl

theorem entry_setIfInBounds {i : Nat} (h : i < b.size) (a : Amplitude R) (x : Nat) :
    Buffer.entry (b.setIfInBounds i a) x = if x = i then a else b.entry x := by
  unfold Buffer.entry
  rw [Array.getD_eq_getD_getElem?, Array.getElem?_setIfInBounds, Array.getD_eq_getD_getElem?]
  by_cases hx : i = x
  · subst hx
    simp [h]
  · have hx' : ¬x = i := fun heq => hx heq.symm
    rw [if_neg hx, if_neg hx']

theorem write_eq_ok {i : Nat} (h : i < b.size) (a : Amplitude R) :
    write b i a = .ok (Buffer.tabulate b.size fun x => if x = i then a else b.entry x) := by
  unfold write
  rw [orCrash_of_true (decide_eq_true h), ok_bind]
  congr 1
  apply Buffer.ext_entry
  · rw [Array.size_setIfInBounds, Buffer.size_tabulate]
  · intro x hx
    rw [Array.size_setIfInBounds] at hx
    rw [entry_setIfInBounds h, Buffer.entry_tabulate_of_lt _ hx]

/-!
## Sweeps
-/

/-- Each entry has one step that comes to it, its owner, and depends on entries of the same
owner only. -/
theorem sweep_eq_ok {size k : Nat} (step : Nat -> Buffer R -> Outcome (Buffer R))
    (owner : Nat -> Nat) (f : Buffer R -> Nat -> Amplitude R)
    (hlocal : forall (b b' : Buffer R) x, x < size ->
      (forall y, y < size -> owner y = owner x -> b.entry y = b'.entry y) -> f b x = f b' x)
    (hstep : forall i (b : Buffer R), i < k -> b.size = size ->
      step i b = .ok (Buffer.tabulate size fun x => if owner x = i then f b x else b.entry x))
    (hb : b.size = size) :
    sweep k step b =
      .ok (Buffer.tabulate size fun x => if owner x < k then f b x else b.entry x) := by
  unfold sweep
  -- The entries of later owners are still the old ones.
  induction k with
  | zero =>
      subst hb
      simp only [Nat.not_lt_zero, if_false, Buffer.tabulate_entry]
      rfl
  | succ k ih =>
      rw [List.range_succ, List.foldlM_append,
        ih fun i b hi => hstep i b (Nat.lt_succ_of_lt hi), ok_bind, List.foldlM_cons,
        hstep k _ (Nat.lt_succ_self k) (Buffer.size_tabulate _ _)]
      change Except.ok _ = Except.ok _
      congr 1
      apply Buffer.tabulate_congr
      intro x hx
      by_cases howner : owner x = k
      · rw [if_pos howner, if_pos (by omega)]
        apply hlocal _ _ x hx
        intro y hy hsame
        rw [Buffer.entry_tabulate_of_lt _ hy, if_neg (by omega)]
      · rw [if_neg howner, Buffer.entry_tabulate_of_lt _ hx]
        by_cases hearlier : owner x < k
        · rw [if_pos hearlier, if_pos (by omega)]
        · rw [if_neg hearlier, if_neg (by omega)]

theorem each_eq_ok {f : Nat -> Amplitude R -> Outcome (Amplitude R)}
    {g : Nat -> Amplitude R -> Amplitude R}
    (hf : forall i a, i < b.size -> f i a = .ok (g i a)) :
    each f b = .ok (Buffer.tabulate b.size fun x => g x (b.entry x)) := by
  have hsweep := sweep_eq_ok (k := b.size) (b := b)
    (fun i b => do write b i (← f i (← read b i))) id (fun b x => g x (b.entry x)) ?_ ?_ rfl
  · unfold each
    rw [hsweep]
    congr 1
    apply Buffer.tabulate_congr
    intro x hx
    exact if_pos hx
  · intro b b' x hx hsame
    rw [hsame x hx rfl]
  · intro i b' hi hsize
    have hi' : i < b'.size := by omega
    rw [read_eq_ok hi', ok_bind, hf i _ hi, ok_bind, write_eq_ok hi', hsize]
    congr 1
    apply Buffer.tabulate_congr
    intro x _
    by_cases hx : x = i
    · subst hx
      rfl
    · exact (if_neg hx).trans (if_neg hx).symm

theorem cross_eq_ok {f : Nat -> Amplitude R -> Amplitude R} {i j : Nat} (hi : i < b.size)
    (hj : j < b.size) (hne : ¬i = j) :
    cross f i j b = .ok (Buffer.tabulate b.size fun x =>
      if x = i then f i (b.entry j) else if x = j then f j (b.entry i) else b.entry x) := by
  unfold cross
  rw [read_eq_ok hi, ok_bind, read_eq_ok hj, ok_bind, write_eq_ok hi, ok_bind,
    write_eq_ok (by rw [Buffer.size_tabulate]; exact hj), Buffer.size_tabulate]
  congr 1
  apply Buffer.tabulate_congr
  intro x hx
  rw [Buffer.entry_tabulate_of_lt _ hx]
  by_cases hxj : x = j
  · have hxi : ¬x = i := fun heq => hne (heq.symm.trans hxj)
    rw [if_pos hxj, if_neg hxi, if_pos hxj]
  · rw [if_neg hxj, if_neg hxj]

/-- An involution of the indices of a buffer that takes each leading index to one that does
not lead. -/
structure Pairing (size : Nat) (leads : Nat -> Bool) (π : Nat -> Nat) : Prop where
  inv : forall x, π (π x) = x
  lt : forall x, x < size -> π x < size
  not_leads : forall x, leads x = true -> leads (π x) = false

namespace Pairing

variable {size : Nat} {leads : Nat -> Bool} {π : Nat -> Nat}

def leader (leads : Nat -> Bool) (π : Nat -> Nat) (x : Nat) : Nat :=
  if leads x then x else π x

def crossed (leads : Nat -> Bool) (π : Nat -> Nat) (f : Nat -> Amplitude R -> Amplitude R)
    (b : Buffer R) (x : Nat) : Amplitude R :=
  if leads x || leads (π x) then f x (b.entry (π x)) else b.entry x

theorem leader_lt (h : Pairing size leads π) {x : Nat} (hx : x < size) :
    leader leads π x < size := by
  unfold leader
  split
  · exact hx
  · exact h.lt x hx

theorem eq_of_leader_eq (h : Pairing size leads π) {x i : Nat} (hx : leader leads π x = i) :
    x = i ∨ x = π i := by
  unfold leader at hx
  split at hx
  · exact Or.inl hx
  · exact Or.inr (by rw [← hx, h.inv])

theorem crossed_congr (h : Pairing size leads π) {f : Nat -> Amplitude R -> Amplitude R}
    {b₁ b₂ : Buffer R} {x : Nat} (hx : x < size)
    (hsame : forall y, y < size -> leader leads π y = leader leads π x ->
      b₁.entry y = b₂.entry y) :
    crossed leads π f b₁ x = crossed leads π f b₂ x := by
  unfold crossed
  by_cases hpair : (leads x || leads (π x)) = true
  · have hleader : leader leads π (π x) = leader leads π x := by
      unfold leader
      cases hx' : leads x with
      | true =>
          rw [h.not_leads x hx', h.inv]
          rfl
      | false =>
          rw [hx', Bool.false_or] at hpair
          rw [hpair]
          rfl
    rw [if_pos hpair, if_pos hpair, hsame _ (h.lt x hx) hleader]
  · rw [if_neg hpair, if_neg hpair, hsame x hx rfl]

theorem cross_eq_ok (h : Pairing size leads π) {f : Nat -> Amplitude R -> Amplitude R} {i : Nat}
    (hi : i < size) (hlead : leads i = true) (hb : b.size = size) :
    cross f i (π i) b = .ok (Buffer.tabulate size fun x =>
      if leader leads π x = i then crossed leads π f b x else b.entry x) := by
  have hother : leads (π i) = false := h.not_leads i hlead
  have hne : ¬i = π i := by
    intro heq
    rw [← heq, hlead] at hother
    cases hother
  have hπi : π i < b.size := by
    rw [hb]
    exact h.lt i hi
  rw [InPlace.cross_eq_ok (by omega) hπi hne, hb]
  congr 1
  apply Buffer.tabulate_congr
  intro x _
  by_cases hx : x = i
  · subst hx
    have hleader : leader leads π x = x := if_pos hlead
    rw [if_pos rfl, if_pos hleader]
    unfold crossed
    rw [hlead, Bool.true_or, if_pos rfl]
  · rw [if_neg hx]
    by_cases hπ : x = π i
    · subst hπ
      have hleader : leader leads π (π i) = i := by
        unfold leader
        rw [hother, if_neg Bool.false_ne_true, h.inv]
      rw [if_pos rfl, if_pos hleader]
      unfold crossed
      rw [h.inv, hlead, Bool.or_true, if_pos rfl]
    · rw [if_neg hπ, if_neg fun hleader => (h.eq_of_leader_eq hleader).elim hx hπ]

theorem crossed_of_not_leads {f : Nat -> Amplitude R -> Amplitude R} {i x : Nat}
    (hlead : leads i = false) (hx : leader leads π x = i) :
    crossed leads π f b x = b.entry x := by
  unfold leader at hx
  split at hx
  · next hx' =>
      rw [hx, hlead] at hx'
      cases hx'
  · next hx' =>
      unfold crossed
      rw [Bool.eq_false_of_not_eq_true hx', hx, hlead]
      rfl

end Pairing

theorem pairs_eq_ok {leads moved : Nat -> Bool} {partner π : Nat -> Nat}
    {f : Nat -> Amplitude R -> Amplitude R} (h : Pairing b.size leads π)
    (hpartner : forall x, leads x = true -> partner x = π x)
    (hmoved : forall x, (leads x || leads (π x)) = moved x) :
    pairs leads partner f b = .ok (Buffer.tabulate b.size fun x =>
      if moved x then f x (b.entry (π x)) else b.entry x) := by
  have hsweep := sweep_eq_ok (k := b.size) (b := b)
    (fun i b => if leads i then cross f i (partner i) b else return b)
    (Pairing.leader leads π) (Pairing.crossed leads π f)
    (fun _ _ _ hx => h.crossed_congr hx) ?_ rfl
  · unfold pairs
    rw [hsweep]
    congr 1
    apply Buffer.tabulate_congr
    intro x hx
    rw [if_pos (h.leader_lt hx), ← hmoved]
    rfl
  · intro i b' hi hsize
    cases hlead : leads i with
    | true =>
        rw [if_pos rfl, hpartner i hlead, h.cross_eq_ok hi hlead hsize]
    | false =>
        rw [if_neg Bool.false_ne_true]
        change Except.ok b' = _
        congr 1
        apply Buffer.ext_entry
        · rw [Buffer.size_tabulate, hsize]
        · intro x hx
          rw [Buffer.entry_tabulate_of_lt _ (by omega)]
          split
          · next hx' => exact (Pairing.crossed_of_not_leads hlead hx').symm
          · rfl

/-!
## Loops and kernels
-/

/-- On a buffer of this size the loop leaves what the kernel gives, which has the same
size. -/
def Sweeps (size : Nat) (loop kernel : Buffer R -> Outcome (Buffer R)) : Prop :=
  forall b : Buffer R, b.size = size ->
    exists b', kernel b = .ok b' ∧ b'.size = size ∧ loop b = .ok b'

omit [Scalar R] in
theorem Sweeps.eq {size : Nat} {loop kernel : Buffer R -> Outcome (Buffer R)}
    (h : Sweeps size loop kernel) (hb : b.size = size) : loop b = kernel b := by
  rcases h b hb with ⟨b', hkernel, _, hloop⟩
  rw [hloop, hkernel]

omit [Scalar R] in
theorem Sweeps.andThen {size : Nat} {loop kernel loop' kernel' : Buffer R -> Outcome (Buffer R)}
    (h : Sweeps size loop kernel) (h' : Sweeps size loop' kernel') :
    Sweeps size (fun b => loop b >>= loop') fun b => kernel b >>= kernel' := by
  intro b hb
  rcases h b hb with ⟨b₁, hkernel, hsize, hloop⟩
  rcases h' b₁ hsize with ⟨b₂, hkernel', hsize', hloop'⟩
  refine ⟨b₂, ?_, hsize', ?_⟩
  · dsimp only
    rw [hkernel, ok_bind, hkernel']
  · dsimp only
    rw [hloop, ok_bind, hloop']

variable {n : Nat} {qs : List Nat}

theorem sweeps_diagonal {size : Nat} {entries : Buffer R}
    (hqs : forall q, q ∈ qs -> q < wordBits) (hlen : qs.length ≤ wordBits)
    (hentries : twoPow qs.length ≤ entries.size) :
    Sweeps size (diagonal qs entries) (Kernel.diagonal qs entries) := by
  intro b hb
  refine ⟨_, Kernel.diagonal_eq_ok hqs hlen hentries, (Buffer.size_tabulate _ _).trans hb, ?_⟩
  apply each_eq_ok (g := fun i a => a * entries.entry (gather qs i))
  intro i a _
  unfold Checked.gather
  rw [addressable_eq_ok_iff.mpr hqs, ok_bind, orCrash_of_true (decide_eq_true hlen), ok_bind]
  change (read entries (gather qs i) >>= fun d => pure (a * d)) = _
  rw [read_eq_ok (Nat.lt_of_lt_of_le (gather_lt qs i) hentries)]
  rfl

theorem sweeps_phase {size : Nat} (factor : Amplitude R)
    (hqs : forall q, q ∈ qs -> q < wordBits) :
    Sweeps size (phase qs factor) (Kernel.phase qs factor) := by
  intro b hb
  refine ⟨_, Kernel.phase_eq_ok factor hqs, (Buffer.size_tabulate _ _).trans hb, ?_⟩
  unfold phase Checked.mask
  rw [addressable_eq_ok_iff.mpr hqs]
  exact each_eq_ok (g := fun i a => if covers (bitMask qs) i then a * factor else a)
    fun _ _ _ => rfl

theorem covers_xor_twoPow {t : Nat} (hnot : t ∉ qs) (x : Nat) :
    covers (bitMask qs) (x ^^^ twoPow t) = covers (bitMask qs) x := by
  rw [Bool.eq_iff_iff, covers_bitMask_iff, covers_bitMask_iff]
  refine forall₂_congr fun q hq => ?_
  have hne : ¬t = q := fun heq => hnot (heq ▸ hq)
  rw [Nat.testBit_xor, testBit_twoPow, decide_eq_false hne, Bool.xor_false]

theorem or_twoPow_of_not {t x : Nat} (hx : x.testBit t = false) :
    x ||| twoPow t = x ^^^ twoPow t := by
  apply Nat.eq_of_testBit_eq
  intro i
  rw [Nat.testBit_or, Nat.testBit_xor, testBit_twoPow]
  by_cases hi : t = i
  · subst hi
    rw [hx, decide_eq_true rfl]
    rfl
  · rw [decide_eq_false hi, Bool.or_false, Bool.xor_false]

theorem sweeps_controlled {controls : List Nat} {t : Nat}
    (f : Nat -> Amplitude R -> Amplitude R) (hnot : t ∉ controls)
    (hcontrols : forall q, q ∈ controls -> q < wordBits) (ht : t < n) (hn : n ≤ wordBits) :
    Sweeps (twoPow n) (controlled (controls ++ [t]) f) (Kernel.controlled (controls ++ [t]) f) := by
  intro b hb
  have hpairing : Pairing b.size (fun x => covers (bitMask controls) x && !x.testBit t)
      fun x => x ^^^ twoPow t := by
    refine ⟨fun x => Nat.xor_xor_cancel_right x _, ?_, ?_⟩
    · rw [hb]
      exact fun x hx => xor_twoPow_lt ht hx
    · intro x hx
      rw [Bool.and_eq_true, Bool.not_eq_true'] at hx
      rw [Nat.testBit_xor, hx.2, testBit_twoPow, decide_eq_true rfl]
      exact Bool.and_false _
  have hmoved : forall x, ((covers (bitMask controls) x && !x.testBit t) ||
      (covers (bitMask controls) (x ^^^ twoPow t) && !(x ^^^ twoPow t).testBit t)) =
        covers (bitMask controls) x := by
    intro x
    rw [covers_xor_twoPow hnot, Nat.testBit_xor, testBit_twoPow, decide_eq_true rfl]
    cases covers (bitMask controls) x <;> cases x.testBit t <;> rfl
  have hpartner : forall x, (covers (bitMask controls) x && !x.testBit t) = true ->
      x ||| twoPow t = x ^^^ twoPow t := by
    intro x hx
    rw [Bool.and_eq_true, Bool.not_eq_true'] at hx
    exact or_twoPow_of_not hx.2
  refine ⟨_, Kernel.controlled_eq_ok f hnot hcontrols ht hn hb,
    (Buffer.size_tabulate _ _).trans hb, ?_⟩
  unfold controlled Checked.mask
  rw [List.getLast?_concat]
  dsimp only
  rw [List.dropLast_concat, checkedShift_of_lt (by omega), ok_bind,
    addressable_eq_ok_iff.mpr hcontrols, ok_bind]
  exact pairs_eq_ok hpairing hpartner hmoved

theorem sweeps_exchange {p q : Nat} (hp : p < n) (hq : q < n) (hn : n ≤ wordBits) :
    Sweeps (twoPow n) (exchange p q) (Kernel.exchange p q : Buffer R -> Outcome (Buffer R)) := by
  intro b hb
  -- With equal places no index is moved: the two flips undo each other.
  have hbits : forall x, p ≠ q -> (x ^^^ twoPow p ^^^ twoPow q).testBit p = !x.testBit p ∧
      (x ^^^ twoPow p ^^^ twoPow q).testBit q = !x.testBit q := by
    intro x hpq
    simp only [Nat.testBit_xor, testBit_twoPow, decide_eq_false hpq, decide_eq_false hpq.symm,
      decide_true, Bool.xor_false, Bool.xor_true, and_self]
  have hpairing : Pairing b.size (fun x => x.testBit p && !x.testBit q)
      fun x => x ^^^ twoPow p ^^^ twoPow q := by
    refine ⟨?_, ?_, ?_⟩
    · intro x
      have hxor := Nat.xor_xor_cancel_right x (twoPow p ^^^ twoPow q)
      simpa only [Nat.xor_assoc] using hxor
    · rw [hb]
      exact fun x hx => xor_twoPow_lt hq (xor_twoPow_lt hp hx)
    · intro x hx
      rw [Bool.and_eq_true, Bool.not_eq_true'] at hx
      have hpq : p ≠ q := by
        rintro rfl
        rw [hx.1] at hx
        cases hx.2
      rw [(hbits x hpq).1, hx.1]
      rfl
  have hmoved : forall x, ((x.testBit p && !x.testBit q) ||
      ((x ^^^ twoPow p ^^^ twoPow q).testBit p && !(x ^^^ twoPow p ^^^ twoPow q).testBit q)) =
        (x.testBit p != x.testBit q) := by
    intro x
    by_cases hpq : p = q
    · subst hpq
      simp
    · rw [(hbits x hpq).1, (hbits x hpq).2]
      cases x.testBit p <;> cases x.testBit q <;> rfl
  refine ⟨_, Kernel.exchange_eq_ok hp hq hn hb, (Buffer.size_tabulate _ _).trans hb, ?_⟩
  unfold exchange
  rw [checkedShift_of_lt (by omega), ok_bind, checkedShift_of_lt (by omega), ok_bind,
    pairs_eq_ok hpairing (fun _ _ => rfl) hmoved]
  congr 1
  apply Buffer.tabulate_congr
  intro x _
  cases hx : x.testBit p == x.testBit q <;> simp_all

theorem pauli_eq {string : String} {factor : Amplitude R} (hb : b.size = twoPow n)
    (hmask : forall masks, PauliMasks.ofString qs string = .ok masks -> masks.x < twoPow n) :
    pauli qs string factor b = Kernel.pauli qs string factor b := by
  unfold pauli Kernel.pauli
  cases hmasks : PauliMasks.ofString qs string with
  | error fault =>
      rfl
  | ok masks =>
      have hlt := hmask masks hmasks
      have hbound : (decide (b.size = 0) || decide (masks.x < b.size)) = true := by
        rw [hb, decide_eq_true hlt, Bool.or_true]
      rw [ok_bind, ok_bind, orCrash_of_true hbound, ok_bind]
      by_cases hx : masks.x = 0
      · simp only [if_pos hx]
        exact each_eq_ok fun _ _ _ => rfl
      · have hpairing : Pairing b.size (fun i => !i.testBit masks.x.log2)
            fun i => i ^^^ masks.x := by
          refine ⟨fun i => Nat.xor_xor_cancel_right i _, ?_, ?_⟩
          · rw [hb]
            exact fun i hi => Nat.xor_lt_two_pow hi hlt
          · intro i hi
            rw [Bool.not_eq_true'] at hi
            rw [Nat.testBit_xor, hi, Nat.testBit_log2 hx]
            rfl
        have hmoved : forall i, (!i.testBit masks.x.log2 ||
            !(i ^^^ masks.x).testBit masks.x.log2) = true := by
          intro i
          rw [Nat.testBit_xor, Nat.testBit_log2 hx]
          cases i.testBit masks.x.log2 <;> rfl
        simp only [if_neg hx]
        exact pairs_eq_ok hpairing (fun _ _ => rfl) hmoved

end InPlace
end Kernel
end MixedState
