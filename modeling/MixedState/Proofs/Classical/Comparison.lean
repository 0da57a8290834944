import MixedState.Proofs.Classical.Hex
import MixedState.Proofs.Classical.Register

/-!
# Boolean functions of the register

A Boolean function masks the register, compares the result with a target as natural numbers,
and writes the truth of the comparison.
-/

namespace MixedState

open MixedState.Hex (bitAt value toBits? Denotes)

def Relation.Relates : Relation -> Nat -> Nat -> Prop
  | .equal, a, b => a = b
  | .notEqual, a, b => a ≠ b
  | .less, a, b => a < b
  | .lessEqual, a, b => a ≤ b
  | .greater, a, b => a > b
  | .greaterEqual, a, b => a ≥ b

theorem Relation.holds_compare_iff (relation : Relation) (a b : Nat) :
    relation.holds (compare a b) = true ↔ relation.Relates a b := by
  unfold holds Relates
  rcases Nat.lt_trichotomy a b with h | rfl | h
  · rw [Nat.compare_eq_lt.mpr h]
    cases relation <;> simp <;> omega
  · rw [Nat.compare_eq_eq.mpr rfl]
    cases relation <;> simp
  · rw [Nat.compare_eq_gt.mpr h]
    cases relation <;> simp <;> omega

namespace Classical

/-!
## One bit
-/

/-- Bit `i` is written, the other bits are kept, and the list has grown with zeros up to bit
`i` where that was past its end. -/
structure IsWritten (bits bits' : List Bool) (i : Nat) (b : Bool) : Prop where
  length : bits'.length = max bits.length (i + 1)
  bit : forall j, bitAt bits' j = if j = i then b else bitAt bits j

theorem isWritten_setBit (bits : List Bool) (i : Nat) (b : Bool) :
    IsWritten bits (setBit bits i b) i b where
  length := by
    unfold setBit
    split
    · rw [List.length_set]
      omega
    · rw [List.length_append, List.length_append, List.length_replicate, List.length_singleton]
      omega
  bit := fun j => bitAt_setBit bits i j b

theorem writeBits_singleton_eq_ok_iff {b : Bool} {bits bits' : List Bool} {slot : Nat} :
    writeBits b.toNat bits 0 [slot] = .ok bits' ↔
      slot + 1 < bufferLimit ∧ setBit bits slot b = bits' := by
  have hbit : b.toNat.testBit 0 = b := by cases b <;> rfl
  rw [writeBits_cons_eq_ok_iff, hbit, writeBits]
  constructor
  · rintro ⟨⟨_, hroom⟩, h⟩
    cases h
    exact ⟨hroom, rfl⟩
  · rintro ⟨hroom, rfl⟩
    exact ⟨⟨by decide, hroom⟩, rfl⟩

/-!
## Masks and targets
-/

theorem value_conjunction {width : Nat} {a : List Bool} (b : List Bool) (ha : a.length ≤ width) :
    value (conjunction width a b) = value a &&& value b := by
  rw [Hex.value_eq_iff]
  intro i
  rw [Nat.testBit_and, Hex.testBit_value, Hex.testBit_value]
  unfold conjunction bitAt
  simp only [List.getD_eq_getElem?_getD, List.getElem?_map]
  by_cases hi : i < width
  · rw [List.getElem?_range hi]
    rfl
  · have hwidth : (List.range width)[i]? = none := by simpa using hi
    rw [hwidth, List.getElem?_eq_none (by omega : a.length ≤ i)]
    rfl

theorem operand_eq_ok_iff {what text : String} {bits : List Bool} :
    operand what text = .ok bits ↔ toBits? text = some bits := by
  unfold operand
  cases toBits? text with
  | none =>
      exact ⟨nofun, nofun⟩
  | some bits' =>
      rw [Except.ok.injEq, Option.some.injEq]

/-!
## Boolean functions
-/

variable {R : Type} {c c' : Classical} {op : Instruction R} {mask target : String}
  {texts : List String} {relation : Relation} {d : Nat} {registers : List Nat}

theorem applyBfunc_eq_ok_iff (htexts : op.texts = mask :: target :: texts)
    (hrelation : op.relation = some relation) (hregisters : op.registers = d :: registers) :
    c.applyBfunc op = .ok c' ↔ exists m t truth, Denotes mask m ∧ Denotes target t ∧
      (truth = true ↔ relation.Relates (value c.register &&& m) t) ∧
      c.record truth.toNat (op.memory.take 1) [d] = .ok c' := by
  have htruth : forall maskBits targetBits, relation.holds (Hex.compareBits
      (conjunction (max (max c.register.length maskBits.length) targetBits.length) c.register
        maskBits) targetBits) =
      relation.holds (compare (value c.register &&& value maskBits) (value targetBits)) := by
    intro maskBits targetBits
    rw [Hex.compareBits_eq, value_conjunction maskBits (by omega)]
  unfold applyBfunc
  rw [htexts, hrelation, hregisters]
  dsimp only
  constructor
  · intro h
    rcases bind_eq_ok_iff.mp h with ⟨maskBits, hmask, h⟩
    rcases bind_eq_ok_iff.mp h with ⟨targetBits, htarget, h⟩
    rw [htruth] at h
    exact ⟨value maskBits, value targetBits, _,
      Hex.denotes_iff.mpr ⟨maskBits, operand_eq_ok_iff.mp hmask, rfl⟩,
      Hex.denotes_iff.mpr ⟨targetBits, operand_eq_ok_iff.mp htarget, rfl⟩,
      relation.holds_compare_iff _ _, h⟩
  · rintro ⟨m, t, truth, hm, ht, hiff, h⟩
    rcases Hex.denotes_iff.mp hm with ⟨maskBits, hmask, rfl⟩
    rcases Hex.denotes_iff.mp ht with ⟨targetBits, htarget, rfl⟩
    rw [← relation.holds_compare_iff, ← Bool.eq_iff_iff] at hiff
    rw [operand_eq_ok_iff.mpr hmask, ok_bind, operand_eq_ok_iff.mpr htarget, ok_bind, htruth,
      ← hiff]
    exact h

def withBit (c : Classical) (slot : Option Nat) (d : Nat) (truth : Bool) : Classical where
  memory := slot.elim c.memory fun slot => setBit c.memory slot truth
  register := setBit c.register d truth

theorem record_singleton_eq_ok_iff {truth : Bool} {slots : List Nat} :
    c.record truth.toNat (slots.take 1) [d] = .ok c' ↔
      (d + 1 < bufferLimit ∧ forall slot, slots.head? = some slot -> slot + 1 < bufferLimit) ∧
        c.withBit slots.head? d truth = c' := by
  rw [record_eq_ok_iff, writeBits_singleton_eq_ok_iff]
  rcases c' with ⟨memory, register⟩
  cases slots with
  | nil =>
      constructor
      · rintro ⟨hmemory, hroom, hregister⟩
        cases hmemory
        cases hregister
        exact ⟨⟨hroom, nofun⟩, rfl⟩
      · rintro ⟨⟨hroom, _⟩, h⟩
        cases h
        exact ⟨rfl, hroom, rfl⟩
  | cons slot rest =>
      rw [List.take_succ_cons, List.take_zero, writeBits_singleton_eq_ok_iff, List.head?_cons]
      constructor
      · rintro ⟨⟨hslot, hmemory⟩, hroom, hregister⟩
        cases hmemory
        cases hregister
        exact ⟨⟨hroom, fun _ h => Option.some.inj h ▸ hslot⟩, rfl⟩
      · rintro ⟨⟨hroom, hslots⟩, h⟩
        cases h
        exact ⟨⟨hslots slot rfl, rfl⟩, hroom, rfl⟩

/-- A Boolean function succeeds exactly if mask and target are numerals and the bits to write
are places of a list.  It then writes the truth of `(register & mask) relation target`, compared
as natural numbers of any size, and nothing else. -/
theorem applyBfunc_compares (htexts : op.texts = mask :: target :: texts)
    (hrelation : op.relation = some relation) (hregisters : op.registers = d :: registers) :
    ((exists c', c.applyBfunc op = .ok c') ↔
      (exists m, Denotes mask m) ∧ (exists t, Denotes target t) ∧ d + 1 < bufferLimit ∧
        forall slot, op.memory.head? = some slot -> slot + 1 < bufferLimit) ∧
    forall c' m t, c.applyBfunc op = .ok c' -> Denotes mask m -> Denotes target t ->
      exists truth, (truth = true ↔ relation.Relates (value c.register &&& m) t) ∧
        IsWritten c.register c'.register d truth ∧
        (op.memory.head? = none -> c'.memory = c.memory) ∧
        forall slot, op.memory.head? = some slot -> IsWritten c.memory c'.memory slot truth := by
  constructor
  · constructor
    · rintro ⟨c', h⟩
      rcases (applyBfunc_eq_ok_iff htexts hrelation hregisters).mp h with
        ⟨m, t, truth, hm, ht, _, hrecord⟩
      exact ⟨⟨m, hm⟩, ⟨t, ht⟩, (record_singleton_eq_ok_iff.mp hrecord).1⟩
    · rintro ⟨⟨m, hm⟩, ⟨t, ht⟩, hroom⟩
      exact ⟨_, (applyBfunc_eq_ok_iff htexts hrelation hregisters).mpr ⟨m, t,
        relation.holds (compare (value c.register &&& m) t), hm, ht,
        relation.holds_compare_iff _ _, record_singleton_eq_ok_iff.mpr ⟨hroom, rfl⟩⟩⟩
  · intro c' m t h hm ht
    rcases (applyBfunc_eq_ok_iff htexts hrelation hregisters).mp h with
      ⟨m', t', truth, hm', ht', htruth, hrecord⟩
    obtain rfl := hm.unique hm'
    obtain rfl := ht.unique ht'
    obtain rfl := (record_singleton_eq_ok_iff.mp hrecord).2
    refine ⟨truth, htruth, isWritten_setBit _ _ _, ?_, ?_⟩
    · intro hnone
      exact congrArg (Option.elim · c.memory _) hnone
    · intro slot hslot
      rw [withBit, hslot]
      exact isWritten_setBit _ _ _

theorem applyBfunc_compares_masked :
    exists c', (⟨[], [false, true, true]⟩ : Classical).applyBfunc
        (.bfunc "0X3" "2" .equal 3 (some 1) : Instruction Float) = .ok c' ∧
      IsWritten [false, true, true] c'.register 3 true ∧ IsWritten [] c'.memory 1 true := by
  have hmask : Denotes "0X3" 3 := Hex.denotes_iff.mpr ⟨_, rfl, rfl⟩
  have htarget : Denotes "2" 2 := Hex.denotes_iff.mpr ⟨_, rfl, rfl⟩
  have htexts : (.bfunc "0X3" "2" .equal 3 (some 1) : Instruction Float).texts = ["0X3", "2"] := rfl
  rcases applyBfunc_compares (c := ⟨[], [false, true, true]⟩) htexts rfl rfl with ⟨hiff, hwritten⟩
  rcases hiff.mpr ⟨⟨3, hmask⟩, ⟨2, htarget⟩, by decide, fun _ h => Option.some.inj h ▸ by decide⟩
    with ⟨c', hc'⟩
  rcases hwritten c' 3 2 hc' hmask htarget with ⟨truth, htruth, hregister, _, hmemory⟩
  obtain rfl : truth = true := htruth.mpr rfl
  exact ⟨c', hc', hregister, hmemory 1 rfl⟩

/-- No list has a bit at place `2 ^ 63`, so that a comparison of two numerals crashes there. -/
theorem applyBfunc_without_room :
    ¬((exists c', Classical.empty.applyBfunc
        (.bfunc "0x1" "0x0" .equal 9223372036854775808 none : Instruction Float) = .ok c') ↔
      (exists m, Denotes "0x1" m) ∧ exists t, Denotes "0x0" t) := by
  intro h
  rcases h.mpr ⟨⟨1, Hex.denotes_iff.mpr ⟨_, rfl, rfl⟩⟩, 0, Hex.denotes_iff.mpr ⟨_, rfl, rfl⟩⟩
    with ⟨c', hc'⟩
  rcases (applyBfunc_eq_ok_iff rfl rfl rfl).mp hc' with ⟨_, _, _, _, _, _, hrecord⟩
  exact absurd (record_singleton_eq_ok_iff.mp hrecord).1.1 (by decide)

end Classical

end MixedState
