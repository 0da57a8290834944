import MixedState.Proofs.InPlace.Classical
import MixedState.Proofs.InPlace.Readout

/-!
# Slots past the width of a word

An outcome is one word.  It is written bit by bit as long as there are no more slots than a
word has bits; one slot more, and the shift that looks for its bit crashes, where the
outcome has a zero there.  A readout error shifts three times by a place in its lists: when
it reads its slots, when it reports a missing row, and when it writes what it drew.
-/

namespace MixedState

open MixedState.Hex (bitAt)

variable {R : Type}

namespace Classical

structure Writable (slots : List Nat) : Prop where
  few : slots.length ≤ wordBits
  room : forall slot, slot ∈ slots -> slot + 1 < bufferLimit

/-- Each slot holds its bit of the outcome, or that of its last listing, and every other bit
is as it was. -/
structure Recorded (outcome : Nat) (slots : List Nat) (bits bits' : List Bool) : Prop where
  listed : forall i slot, slots[i]? = some slot -> slot ∉ slots.drop (i + 1) ->
    slot < bits'.length ∧ bitAt bits' slot = outcome.testBit i
  unlisted : forall slot, slot ∉ slots -> bitAt bits' slot = bitAt bits slot

variable {outcome first : Nat} {bits bits' : List Bool} {slots memory registers : List Nat}
  {c c' : Classical}

theorem recorded_writeBits (h : writeBits outcome bits 0 slots = .ok bits') :
    Recorded outcome slots bits bits' where
  listed i slot hslot hlast := by
    have hwritten := bitAt_writeBits_of_last h hslot hlast
    rw [Nat.zero_add] at hwritten
    exact hwritten
  unlisted _ hslot := bitAt_writeBits_of_not_mem h hslot

theorem length_le_of_writeBits (hfirst : first ≤ wordBits)
    (h : writeBits outcome bits first slots = .ok bits') :
    first + slots.length ≤ wordBits ∧ forall slot, slot ∈ slots -> slot + 1 < bufferLimit := by
  -- The last of the slots is not past the width of a word.
  induction slots generalizing bits first with
  | nil =>
      exact ⟨hfirst, nofun⟩
  | cons slot rest ih =>
      rcases writeBits_cons_eq_ok_iff.mp h with ⟨⟨hplace, hslot⟩, hrest⟩
      rcases ih hplace hrest with ⟨hfew, hroom⟩
      refine ⟨?_, List.forall_mem_cons.mpr ⟨hslot, hroom⟩⟩
      rw [List.length_cons]
      omega

theorem exists_writeBits_iff (outcome : Nat) (bits : List Bool) :
    (exists bits', writeBits outcome bits 0 slots = .ok bits') ↔ Writable slots := by
  constructor
  · rintro ⟨bits', h⟩
    rcases length_le_of_writeBits (Nat.zero_le _) h with ⟨hfew, hroom⟩
    rw [Nat.zero_add] at hfew
    exact ⟨hfew, hroom⟩
  · rintro ⟨hfew, hroom⟩
    exact exists_writeBits hroom (by omega) outcome bits

theorem exists_record_iff (c : Classical) (outcome : Nat) :
    (exists c', c.record outcome memory registers = .ok c') ↔
      Writable memory ∧ Writable registers := by
  rw [← exists_writeBits_iff outcome c.memory, ← exists_writeBits_iff outcome c.register]
  constructor
  · rintro ⟨c', h⟩
    rcases record_eq_ok_iff.mp h with ⟨hmemory, hregister⟩
    exact ⟨⟨_, hmemory⟩, ⟨_, hregister⟩⟩
  · rintro ⟨⟨memory', hmemory⟩, ⟨register', hregister⟩⟩
    exact ⟨⟨memory', register'⟩, record_eq_ok_iff.mpr ⟨hmemory, hregister⟩⟩

theorem record_eq_crash_iff (c : Classical) (outcome : Nat) :
    c.record outcome memory registers = crash ↔ ¬(Writable memory ∧ Writable registers) := by
  rw [← exists_record_iff c outcome]
  cases hrecord : c.record outcome memory registers with
  | ok c' =>
      exact ⟨nofun, fun hnone => absurd ⟨c', rfl⟩ hnone⟩
  | error fault =>
      rw [eq_crash_of_error (InPlace.noRefusal_record _ _ _ _) hrecord]
      exact ⟨fun _ => nofun, fun _ => rfl⟩

end Classical

/-!
## Readout errors
-/

variable [Scalar R]

def Overweight (weights : List R) : Prop :=
  exists total, (runningSums (weights.map Scalar.clamp)).getLast? = some total ∧
    Scalar.lt 0 total = true ∧ Scalar.isFinite total = false

theorem Source.choose_eq_crash_iff (source : Source) (weights : List R) :
    source.choose weights = crash ↔ Overweight weights := by
  unfold choose Overweight
  dsimp only
  cases htotal : (runningSums (weights.map Scalar.clamp)).getLast? with
  | none =>
      simp [refuse, crash]
  | some total =>
      cases hpos : Scalar.lt 0 total with
      | false =>
          simp [refuse, crash, hpos]
      | true =>
          cases hfinite : Scalar.isFinite total <;> simp [crash, hpos, hfinite]

namespace Classical

variable {c : Classical} {op : Instruction R} {source : Source} {row : List R}

omit [Scalar R] in
theorem SelectsRow.few (h : c.SelectsRow op row) : op.memory.length ≤ wordBits := by
  rcases h with ⟨current, hcurrent, _⟩
  unfold Classical.read at hcurrent
  split at hcurrent
  · assumption
  · cases hcurrent

theorem applyReadout_of_many (hmany : wordBits < op.memory.length) :
    c.applyReadout op source = crash := by
  unfold applyReadout Classical.read
  rw [if_neg (Nat.not_le.mpr hmany)]
  rfl

theorem applyReadout_of_no_row (hfew : op.memory.length ≤ wordBits)
    (hnone : forall row, ¬c.SelectsRow op row) :
    c.applyReadout op source = if op.memory.length = wordBits then crash
      else refuse (.elementCount op.name (twoPow op.memory.length) op.readout.length) := by
  have hread : Classical.read c.memory op.memory =
      .ok (Hex.value (op.memory.map (bitAt c.memory))) := if_pos hfew
  have hrow : op.readout[Hex.value (op.memory.map (bitAt c.memory))]? = none :=
    Option.eq_none_iff_forall_ne_some.mpr fun row hrow => hnone row ⟨_, hread, hrow⟩
  unfold applyReadout
  rw [hread, ok_bind, hrow]
  dsimp only
  unfold checkedShift
  split
  · rw [if_neg (by omega)]
    rfl
  · rw [if_pos (by omega)]
    rfl

theorem applyReadout_of_row (h : c.SelectsRow op row) :
    c.applyReadout op source = (source.choose row >>= fun drawn =>
      c.record drawn.1 op.memory op.registers >>= fun c' => pure (c', drawn.2)) := by
  rcases h with ⟨current, hcurrent, hrow⟩
  unfold applyReadout
  rw [hcurrent, ok_bind, hrow]

theorem applyReadout_of_row_eq_crash_iff (h : c.SelectsRow op row) :
    c.applyReadout op source = crash ↔ Overweight row ∨
      (exists drawn, source.choose row = .ok drawn) ∧
        ¬(Writable op.memory ∧ Writable op.registers) := by
  rw [applyReadout_of_row h, ← source.choose_eq_crash_iff]
  cases hchoose : source.choose row with
  | error fault =>
      cases fault <;> simp [crash, bind, Except.bind]
  | ok drawn =>
      rw [ok_bind, ← record_eq_crash_iff c drawn.1]
      cases hrecord : c.record drawn.1 op.memory op.registers with
      | ok c' =>
          simp [crash, bind, Except.bind, pure, Except.pure]
      | error fault =>
          rw [eq_crash_of_error (InPlace.noRefusal_record _ _ _ _) hrecord]
          simp [crash, bind, Except.bind]

theorem applyReadout_eq_crash_iff : c.applyReadout op source = crash ↔
    wordBits < op.memory.length ∨
    (op.memory.length = wordBits ∧ forall row, ¬c.SelectsRow op row) ∨
    exists row, c.SelectsRow op row ∧ (Overweight row ∨
      (exists drawn, source.choose row = .ok drawn) ∧
        ¬(Writable op.memory ∧ Writable op.registers)) := by
  by_cases hmany : wordBits < op.memory.length
  · exact ⟨fun _ => Or.inl hmany, fun _ => applyReadout_of_many hmany⟩
  · rw [or_iff_right hmany]
    by_cases hrow : exists row, c.SelectsRow op row
    · rcases hrow with ⟨row, hrow⟩
      rw [applyReadout_of_row_eq_crash_iff hrow]
      constructor
      · intro hcrash
        exact Or.inr ⟨row, hrow, hcrash⟩
      · rintro (⟨_, hnone⟩ | ⟨row', hrow', hcrash⟩)
        · exact absurd hrow (hnone row)
        · rw [hrow.unique hrow']
          exact hcrash
    · have hnone := not_exists.mp hrow
      rw [applyReadout_of_no_row (Nat.not_lt.mp hmany) hnone]
      constructor
      · intro hcrash
        by_cases hfull : op.memory.length = wordBits
        · exact Or.inl ⟨hfull, hnone⟩
        · rw [if_neg hfull] at hcrash
          cases hcrash
      · rintro (⟨hfull, _⟩ | ⟨row, hselects, _⟩)
        · exact if_pos hfull
        · exact absurd hselects (hnone row)

/-- A recorded outcome is in its slots, bit by bit, exactly where no list is longer than a
word and no slot is past what a list can have; otherwise the record crashes.  A readout
error crashes exactly where it has more slots than a word has bits, where it has as many and
no row for what they spell, where the weights of the row have no finite sum, and where what
it drew cannot be recorded. -/
theorem record_within_word (c : Classical) :
    (forall (outcome : Nat) (memory registers : List Nat),
      (c.record outcome memory registers = crash ↔
        ¬(Writable memory ∧ Writable registers)) ∧
      (Writable memory ∧ Writable registers -> exists c',
        c.record outcome memory registers = .ok c' ∧
          Recorded outcome memory c.memory c'.memory ∧
          Recorded outcome registers c.register c'.register)) ∧
    forall (op : Instruction R) (source : Source), c.applyReadout op source = crash ↔
      wordBits < op.memory.length ∨
      (op.memory.length = wordBits ∧ forall row, ¬c.SelectsRow op row) ∨
      exists row, c.SelectsRow op row ∧ (Overweight row ∨
        (exists drawn, source.choose row = .ok drawn) ∧
          ¬(Writable op.memory ∧ Writable op.registers)) := by
  refine ⟨fun outcome memory registers => ⟨record_eq_crash_iff c outcome, ?_⟩,
    fun op source => applyReadout_eq_crash_iff⟩
  intro hwritable
  rcases (exists_record_iff c outcome).mpr hwritable with ⟨c', hrecord⟩
  rcases record_eq_ok_iff.mp hrecord with ⟨hmemory, hregister⟩
  exact ⟨c', hrecord, recorded_writeBits hmemory, recorded_writeBits hregister⟩

/-- Slots out of order are written; one slot more than a word has bits is not, and as many
slots without a row crash the readout error that reports it. -/
theorem record_within_word_full :
    (exists c', empty.record 2 [3, 1] [0] = .ok c' ∧ bitAt c'.memory 1 = true ∧
      bitAt c'.memory 3 = false) ∧
    empty.record 1 (List.range 65) [] = crash ∧
    empty.applyReadout (Instruction.readoutError (R := Float) (List.range 64) []) (.ofSeed 0) =
      crash := by
  rcases record_within_word (R := Float) empty with ⟨hrecord, hreadout⟩
  have hwritable : Writable [3, 1] ∧ Writable [0] :=
    ⟨⟨by decide, by decide⟩, ⟨by decide, by decide⟩⟩
  have hlong : ¬(Writable (List.range 65) ∧ Writable []) := by
    rintro ⟨hmemory, _⟩
    exact absurd hmemory.few (by decide)
  have hnone : forall row, ¬empty.SelectsRow
      (Instruction.readoutError (R := Float) (List.range 64) []) row := by
    rintro row ⟨current, _, hrow⟩
    cases hrow
  rcases (hrecord 2 [3, 1] [0]).2 hwritable with ⟨c', hc', hmemory, _⟩
  refine ⟨⟨c', hc', ?_, ?_⟩, (hrecord 1 _ _).1.mpr hlong, (hreadout _ _).mpr (Or.inr (Or.inl ?_))⟩
  · exact (hmemory.listed 1 1 rfl (by decide)).2
  · exact (hmemory.listed 0 3 rfl (by decide)).2
  · exact ⟨by decide, hnone⟩

end Classical

end MixedState
