import MixedState.Classical.Register
import MixedState.Proofs.Density.Kernel

/-!
# Recorded outcomes

Bits written to distinct slots are read back there, and every other bit stays.
Writing them a second time changes nothing.
-/

namespace MixedState
namespace Classical

open MixedState.Hex (bitAt)

theorem bitAt_setBit (bits : List Bool) (i j : Nat) (b : Bool) :
    bitAt (setBit bits i b) j = if j = i then b else bitAt bits j := by
  unfold setBit bitAt
  rw [List.getD_eq_getElem?_getD, List.getD_eq_getElem?_getD]
  by_cases hi : i < bits.length
  · rw [if_pos hi, List.getElem?_set]
    by_cases hj : j = i
    · simp [hj, hi]
    · rw [if_neg hj, if_neg fun h => hj h.symm]
  · rw [if_neg hi, List.append_assoc, List.getElem?_append]
    by_cases hj : j < bits.length
    · rw [if_pos hj, if_neg (by omega)]
    · rw [if_neg hj, List.getElem?_append, List.length_replicate]
      by_cases hgap : j - bits.length < i - bits.length
      · rw [if_pos hgap, List.getElem?_replicate, if_pos hgap, if_neg (by omega),
          List.getElem?_eq_none (not_lt.mp hj)]
        rfl
      · rw [if_neg hgap]
        by_cases hsame : j = i
        · rw [if_pos hsame, hsame, Nat.sub_self]
          rfl
        · have hfar : 1 ≤ j - bits.length - (i - bits.length) := by omega
          rw [if_neg hsame, List.getElem?_eq_none hfar, List.getElem?_eq_none (not_lt.mp hj)]

theorem lt_length_setBit (bits : List Bool) (i : Nat) (b : Bool) :
    i < (setBit bits i b).length ∧ bits.length ≤ (setBit bits i b).length := by
  unfold setBit
  split
  · next hi =>
      rw [List.length_set]
      exact ⟨hi, Nat.le_refl _⟩
  · rw [List.length_append, List.length_append, List.length_replicate, List.length_singleton]
    omega

theorem setBit_bitAt {bits : List Bool} {i : Nat} (hi : i < bits.length) :
    setBit bits i (bitAt bits i) = bits := by
  unfold setBit bitAt
  rw [if_pos hi, List.getD_eq_getElem?_getD, List.getElem?_eq_getElem hi, Option.getD_some,
    List.set_getElem_self]

variable {outcome first : Nat} {bits bits' : List Bool} {slots : List Nat}

theorem writeBits_cons_eq_ok_iff {slot : Nat} {rest : List Nat} :
    writeBits outcome bits first (slot :: rest) = .ok bits' ↔
      (first < wordBits ∧ slot + 1 < bufferLimit) ∧
        writeBits outcome (setBit bits slot (outcome.testBit first)) (first + 1) rest
          = .ok bits' := by
  rw [writeBits]
  split
  · next hroom =>
      exact ⟨fun h => ⟨hroom, h⟩, fun h => h.2⟩
  · next hroom =>
      constructor
      · intro h
        cases h
      · intro h
        exact absurd h.1 hroom

theorem bitAt_writeBits_of_not_mem (h : writeBits outcome bits first slots = .ok bits')
    {j : Nat} (hj : j ∉ slots) : bitAt bits' j = bitAt bits j := by
  induction slots generalizing bits first with
  | nil =>
      cases h
      rfl
  | cons slot rest ih =>
      rcases not_or.mp fun h => hj (List.mem_cons.mpr h) with ⟨hslot, hrest⟩
      rw [ih (writeBits_cons_eq_ok_iff.mp h).2 hrest, bitAt_setBit, if_neg hslot]

theorem length_le_writeBits (h : writeBits outcome bits first slots = .ok bits') :
    bits.length ≤ bits'.length := by
  induction slots generalizing bits first with
  | nil =>
      cases h
      exact Nat.le_refl _
  | cons slot rest ih =>
      exact Nat.le_trans (lt_length_setBit bits slot _).2 (ih (writeBits_cons_eq_ok_iff.mp h).2)

/-- A slot is in the list afterwards and holds its bit of the outcome, unless it comes again
further on. -/
theorem bitAt_writeBits_of_last (h : writeBits outcome bits first slots = .ok bits')
    {i slot : Nat} (hslot : slots[i]? = some slot) (hlast : slot ∉ slots.drop (i + 1)) :
    slot < bits'.length ∧ bitAt bits' slot = outcome.testBit (first + i) := by
  induction slots generalizing bits first i with
  | nil =>
      cases hslot
  | cons head rest ih =>
      have hwritten := (writeBits_cons_eq_ok_iff.mp h).2
      rw [List.drop_succ_cons] at hlast
      cases i with
      | zero =>
          obtain rfl : head = slot := Option.some.inj hslot
          rw [bitAt_writeBits_of_not_mem hwritten hlast, bitAt_setBit, if_pos rfl]
          exact ⟨Nat.lt_of_lt_of_le (lt_length_setBit bits head _).1
            (length_le_writeBits hwritten), rfl⟩
      | succ i =>
          rw [List.getElem?_cons_succ] at hslot
          rw [Nat.add_succ, ← Nat.succ_add]
          exact ih hwritten hslot hlast

theorem bitAt_writeBits (h : writeBits outcome bits first slots = .ok bits')
    (hnodup : slots.Nodup) {i slot : Nat} (hslot : slots[i]? = some slot) :
    slot < bits'.length ∧ bitAt bits' slot = outcome.testBit (first + i) := by
  apply bitAt_writeBits_of_last h hslot
  rcases List.getElem?_eq_some_iff.mp hslot with ⟨hi, rfl⟩
  rw [← List.take_append_drop (i + 1) slots, List.nodup_append'] at hnodup
  apply hnodup.2.2
  rw [List.mem_take_iff_getElem]
  exact ⟨i, by omega, rfl⟩

theorem writeBits_eq_self (h : writeBits outcome bits first slots = .ok bits')
    {held : List Bool} (hheld : forall i slot, slots[i]? = some slot ->
      slot < held.length ∧ bitAt held slot = outcome.testBit (first + i)) :
    writeBits outcome held first slots = .ok held := by
  induction slots generalizing bits first with
  | nil =>
      rfl
  | cons head rest ih =>
      rcases writeBits_cons_eq_ok_iff.mp h with ⟨hroom, hwritten⟩
      rcases hheld 0 head rfl with ⟨hlt, hbit⟩
      rw [Nat.add_zero] at hbit
      rw [writeBits_cons_eq_ok_iff, ← hbit, setBit_bitAt hlt]
      refine ⟨hroom, ih hwritten ?_⟩
      intro i slot hslot
      rw [Nat.succ_add, ← Nat.add_succ]
      exact hheld (i + 1) slot hslot

variable {c c' : Classical} {memory registers : List Nat}

theorem record_eq_ok_iff :
    c.record outcome memory registers = .ok c' ↔
      writeBits outcome c.memory 0 memory = .ok c'.memory ∧
        writeBits outcome c.register 0 registers = .ok c'.register := by
  unfold record
  constructor
  · intro h
    rcases bind_eq_ok_iff.mp h with ⟨bits, hbits, h⟩
    rcases bind_eq_ok_iff.mp h with ⟨bits', hbits', h⟩
    cases h
    exact ⟨hbits, hbits'⟩
  · rintro ⟨hmemory, hregister⟩
    rw [hmemory, ok_bind, hregister]
    rfl

theorem record_again (h : c.record outcome memory registers = .ok c')
    (hmemory : memory.Nodup) (hregisters : registers.Nodup) :
    c'.record outcome memory registers = .ok c' := by
  rcases record_eq_ok_iff.mp h with ⟨hbits, hbits'⟩
  rw [record_eq_ok_iff]
  exact ⟨writeBits_eq_self hbits fun _ _ hslot => bitAt_writeBits hbits hmemory hslot,
    writeBits_eq_self hbits' fun _ _ hslot => bitAt_writeBits hbits' hregisters hslot⟩

theorem applyReadout_eq_ok {R : Type} [Scalar R] {op : Instruction R} {source source' : Source}
    (h : c.applyReadout op source = .ok (c', source')) :
    exists current row value, Classical.read c.memory op.memory = .ok current ∧
      op.readout[current]? = some row ∧ source.choose row = .ok (value, source') ∧
      c.record value op.memory op.registers = .ok c' := by
  unfold applyReadout at h
  rcases bind_eq_ok_iff.mp h with ⟨current, hcurrent, h⟩
  cases hrow : op.readout[current]? with
  | none =>
      rw [hrow] at h
      rcases bind_eq_ok_iff.mp h with ⟨_, _, h⟩
      cases h
  | some row =>
      rw [hrow] at h
      rcases bind_eq_ok_iff.mp h with ⟨⟨value, next⟩, hvalue, h⟩
      rcases bind_eq_ok_iff.mp h with ⟨c'', hrecord, h⟩
      cases h
      exact ⟨current, row, value, hcurrent, hrow, hvalue, hrecord⟩

end Classical
end MixedState
