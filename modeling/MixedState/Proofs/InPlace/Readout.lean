import MixedState.Proofs.Classical.Hex
import MixedState.Proofs.Classical.Register
import MixedState.Proofs.Double.Laws
import MixedState.Proofs.InPlace.Experiment
import MixedState.Proofs.Random.Draw

/-!
# Readout errors read what measurements wrote

The slots of a measurement spell its outcome, so that a readout error on them draws from
the row of that outcome.  The value that it draws has a positive weight and is what the
slots spell afterwards.
-/

namespace MixedState

open MixedState.Hex (bitAt)

variable {R : Type}

namespace Classical

variable {bits bits' : List Bool} {slots : List Nat} {outcome : Nat}

def SelectsRow (c : Classical) (op : Instruction R) (row : List R) : Prop :=
  exists current, Classical.read c.memory op.memory = .ok current ∧
    op.readout[current]? = some row

theorem SelectsRow.unique {c : Classical} {op : Instruction R} {row row' : List R}
    (h : c.SelectsRow op row) (h' : c.SelectsRow op row') : row = row' := by
  rcases h with ⟨current, hcurrent, hrow⟩
  rcases h' with ⟨current', hcurrent', hrow'⟩
  obtain rfl : current = current' := Except.ok.inj (hcurrent.symm.trans hcurrent')
  exact Option.some.inj (hrow.symm.trans hrow')

theorem exists_writeBits {first : Nat} (hroom : forall slot, slot ∈ slots -> slot + 1 < bufferLimit)
    (hfew : first + slots.length ≤ wordBits) (outcome : Nat) (bits : List Bool) :
    exists bits', writeBits outcome bits first slots = .ok bits' := by
  induction slots generalizing first bits with
  | nil =>
      exact ⟨bits, rfl⟩
  | cons slot rest ih =>
      rcases List.forall_mem_cons.mp hroom with ⟨hslot, hrest⟩
      rw [List.length_cons] at hfew
      rcases ih hrest (by omega : first + 1 + rest.length ≤ wordBits)
        (setBit bits slot (outcome.testBit first)) with ⟨bits', hbits'⟩
      exact ⟨bits', writeBits_cons_eq_ok_iff.mpr ⟨⟨by omega, hslot⟩, hbits'⟩⟩

theorem read_writeBits (h : writeBits outcome bits 0 slots = .ok bits') (hnodup : slots.Nodup)
    (hfew : slots.length ≤ wordBits) :
    Classical.read bits' slots = .ok (outcome % twoPow slots.length) := by
  have hvalue : Hex.value (slots.map (bitAt bits')) = outcome % twoPow slots.length := by
    rw [Hex.value_eq_iff]
    intro i
    change _ = (outcome % 2 ^ slots.length).testBit i
    rw [Nat.testBit_mod_two_pow]
    unfold bitAt
    rw [List.getD_eq_getElem?_getD, List.getElem?_map]
    cases hslot : slots[i]? with
    | none =>
        have hi : ¬i < slots.length := not_lt.mpr (List.getElem?_eq_none_iff.mp hslot)
        rw [decide_eq_false hi]
        rfl
    | some slot =>
        have hi := (List.getElem?_eq_some_iff.mp hslot).1
        have hbit := (bitAt_writeBits h hnodup hslot).2
        rw [Nat.zero_add] at hbit
        rw [decide_eq_true hi]
        exact hbit
  unfold Classical.read
  rw [if_pos hfew, hvalue]

variable {c c' : Classical} {registers : List Nat} {op : Instruction R} {row : List R}

theorem exists_record (hroom : forall slot, slot ∈ slots ++ registers -> slot + 1 < bufferLimit)
    (hslots : slots.length ≤ wordBits) (hregisters : registers.length ≤ wordBits) :
    exists c', c.record outcome slots registers = .ok c' := by
  rcases List.forall_mem_append.mp hroom with ⟨hroom, hroom'⟩
  rcases exists_writeBits hroom (by omega : 0 + slots.length ≤ wordBits) outcome c.memory with
    ⟨memory, hmemory⟩
  rcases exists_writeBits hroom' (by omega : 0 + registers.length ≤ wordBits) outcome c.register
    with ⟨register, hregister⟩
  exact ⟨⟨memory, register⟩, record_eq_ok_iff.mpr ⟨hmemory, hregister⟩⟩

theorem selectsRow_iff_of_record (h : c.record outcome op.memory registers = .ok c')
    (hnodup : op.memory.Nodup) (hfew : op.memory.length ≤ wordBits) :
    c'.SelectsRow op row ↔ op.readout[outcome % twoPow op.memory.length]? = some row := by
  have hspelled := read_writeBits (record_eq_ok_iff.mp h).1 hnodup hfew
  unfold SelectsRow
  rw [hspelled]
  constructor
  · rintro ⟨current, hcurrent, hrow⟩
    cases hcurrent
    exact hrow
  · intro hrow
    exact ⟨_, rfl, hrow⟩

end Classical

variable [Scalar R]

structure Experiment.Reported (e e' : Experiment R) (op : Instruction R) (row : List R)
    (value : Nat) : Prop where
  drawn : e.source.choose row = .ok (value, e'.source)
  once : e'.source = e.source.advance
  spelled : Classical.read e'.machine.classical.memory op.memory = .ok value
  memory : forall slot, slot ∉ op.memory ->
    bitAt e'.machine.classical.memory slot = bitAt e.machine.classical.memory slot
  register : forall i bit, op.registers[i]? = some bit -> bit ∉ op.registers.drop (i + 1) ->
    bitAt e'.machine.classical.register bit = value.testBit i
  unlisted : forall bit, bit ∉ op.registers ->
    bitAt e'.machine.classical.register bit = bitAt e.machine.classical.register bit
  rest : e' = { e with
    machine := { e.machine with classical := e'.machine.classical }, source := e'.source }

namespace Experiment.InPlace

variable {e e' : Experiment R} {op : Instruction R}

theorem applyReadout_eq_ok_iff : applyReadout op e = (.ok (), e') ↔
    exists c source, e.machine.classical.applyReadout op e.source = .ok (c, source) ∧
      e' = { e with machine := { e.machine with classical := c }, source := source } := by
  have hcarries : Procedure.CarriesOut (applyReadout op) e _ := carriesOut_applyReadout
  unfold Procedure.CarriesOut at hcarries
  constructor
  · intro h
    rw [h] at hcarries
    rcases hcarries with heq | ⟨hcrash, _⟩
    · cases hreadout : e.machine.classical.applyReadout op e.source with
      | error fault =>
          rw [hreadout] at heq
          cases heq
      | ok reported =>
          rw [hreadout] at heq
          exact ⟨reported.1, reported.2, rfl, congrArg Prod.snd heq⟩
    · cases hcrash
  · rintro ⟨c, source, hreadout, rfl⟩
    rw [hreadout] at hcarries
    rcases hcarries with heq | ⟨_, hcrash⟩
    · exact heq
    · cases hcrash

theorem applyReadout_of_refuse {cause : Refusal} (h : applyReadout op e = (refuse cause, e')) :
    e' = e := by
  have hcarries : Procedure.CarriesOut (applyReadout op) e _ := carriesOut_applyReadout
  unfold Procedure.CarriesOut at hcarries
  rw [h] at hcarries
  have heq := hcarries.eq_of_refused (Or.inl rfl)
  cases hreadout : e.machine.classical.applyReadout op e.source with
  | error fault =>
      rw [hreadout] at heq
      exact congrArg Prod.snd heq
  | ok reported =>
      rw [hreadout] at heq
      cases heq

theorem exists_reported (hnodup : op.memory.Nodup) (hfew : op.memory.length < wordBits)
    (hrows : forall row, row ∈ op.readout -> row.length ≤ twoPow op.memory.length)
    (h : applyReadout op e = (.ok (), e')) :
    exists row value, e.machine.classical.SelectsRow op row ∧ e.Reported e' op row value := by
  rcases applyReadout_eq_ok_iff.mp h with ⟨c, source, hreadout, rfl⟩
  rcases Classical.applyReadout_eq_ok hreadout with
    ⟨current, row, value, hcurrent, hrow, hvalue, hrecord⟩
  rcases Classical.record_eq_ok_iff.mp hrecord with ⟨hmemory, hregister⟩
  have hsmall : value < twoPow op.memory.length :=
    Nat.lt_of_lt_of_le (lt_length_of_choose hvalue) (hrows row (List.mem_of_getElem? hrow))
  have hspelled := Classical.read_writeBits hmemory hnodup (Nat.le_of_lt hfew)
  rw [Nat.mod_eq_of_lt hsmall] at hspelled
  refine ⟨row, value, ⟨current, hcurrent, hrow⟩, hvalue, source_of_choose hvalue, hspelled, ?_, ?_,
    ?_, rfl⟩
  · intro slot hslot
    exact Classical.bitAt_writeBits_of_not_mem hmemory hslot
  · intro i bit hbit hlast
    have hwritten := (Classical.bitAt_writeBits_of_last hregister hbit hlast).2
    rw [Nat.zero_add] at hwritten
    exact hwritten
  · intro bit hbit
    exact Classical.bitAt_writeBits_of_not_mem hregister hbit

/-- Slots that hold what a measurement wrote select the row of its outcome.  A readout error
that succeeds draws once, from the row that was selected, an entry of positive weight, and
writes it to its slots and register bits, where a bit that is listed again further on keeps
what is written last.  One that is refused has neither written nor drawn. -/
theorem applyReadout_reports {op : Instruction Float} (hnodup : op.memory.Nodup)
    (hfew : op.memory.length < wordBits) :
    (forall (c : Classical) (outcome : Nat) (registers : List Nat),
      (forall slot, slot ∈ op.memory ++ registers -> slot + 1 < bufferLimit) ->
      registers.length ≤ wordBits -> exists c', c.record outcome op.memory registers = .ok c') ∧
    (forall (c c' : Classical) (outcome : Nat) (registers : List Nat) (row : List Float),
      c.record outcome op.memory registers = .ok c' ->
      (c'.SelectsRow op row ↔
        op.readout[outcome % twoPow op.memory.length]? = some row)) ∧
    ((forall row, row ∈ op.readout -> row.length ≤ twoPow op.memory.length) ->
      forall e e' : Experiment Float, applyReadout op e = (.ok (), e') ->
        exists row value weight, e.machine.classical.SelectsRow op row ∧
          e.Reported e' op row value ∧ row[value]? = some weight ∧
          Scalar.lt 0 weight = true) ∧
    forall (e e' : Experiment Float) (cause : Refusal),
      applyReadout op e = (refuse cause, e') -> e' = e := by
  refine ⟨?_, ?_, ?_, ?_⟩
  · intro c outcome registers hroom hregisters
    exact Classical.exists_record hroom (Nat.le_of_lt hfew) hregisters
  · intro c c' outcome registers row hrecord
    exact Classical.selectsRow_iff_of_record hrecord hnodup (Nat.le_of_lt hfew)
  · intro hrows e e' h
    rcases exists_reported hnodup hfew hrows h with ⟨row, value, hselects, hreported⟩
    have hlt := lt_length_of_choose hreported.drawn
    have hpos := Scalar.draws_double.lt_choose hreported.drawn
    rw [List.getD_eq_getElem?_getD, List.getElem?_eq_getElem hlt] at hpos
    exact ⟨row, value, row[value], hselects, hreported, List.getElem?_eq_getElem hlt, hpos⟩
  · intro e e' cause h
    exact applyReadout_of_refuse h

/-- Two slots of which the first is past the end, with rows for two of their values. -/
def swappedSlots : Instruction Float :=
  (Instruction.readoutError [2, 0] [[1, 0, 0, 0], [0, 0, 1, 0]]).withRegisters [0, 1]

def recorded (c : Classical) : Experiment Float :=
  { machine := { Machine.ofStore ⟨1, 0, #[1, 0, 0, 0]⟩ with classical := c }
    archive := .empty
    source := .ofSeed 0 }

theorem applyReadout_reports_swapped :
    (exists c e', Classical.empty.record 5 swappedSlots.memory [] = .ok c ∧
      c.SelectsRow swappedSlots [0, 0, 1, 0] ∧
      applyReadout swappedSlots (recorded c) = (.ok (), e') ∧
      (recorded c).Reported e' swappedSlots [0, 0, 1, 0] 2) ∧
    exists c cause e', Classical.empty.record 2 swappedSlots.memory [] = .ok c ∧
      applyReadout swappedSlots (recorded c) = (refuse cause, e') ∧ e' = recorded c := by
  have hnodup : swappedSlots.memory.Nodup := by decide
  have hfew : swappedSlots.memory.length < wordBits := by decide
  rcases applyReadout_reports hnodup hfew with ⟨hexists, hselects, hreports, hrefused⟩
  have hroom : forall slot, slot ∈ swappedSlots.memory ++ [] -> slot + 1 < bufferLimit := by
    decide
  have hrows : forall row, row ∈ swappedSlots.readout ->
      row.length ≤ twoPow swappedSlots.memory.length := by
    decide
  constructor
  · rcases hexists .empty 5 [] hroom (by decide) with ⟨c, hc⟩
    have hrow : c.SelectsRow swappedSlots [0, 0, 1, 0] := (hselects .empty c 5 [] _ hc).mpr rfl
    have hdrawn : c.applyReadout swappedSlots (.ofSeed 0) =
        .ok (⟨[true, false, false], [false, true]⟩, (Source.ofSeed 0).advance) := by
      cases hc
      decide +kernel
    have he' := (applyReadout_eq_ok_iff (e := recorded c)).mpr ⟨_, _, hdrawn, rfl⟩
    rcases hreports hrows (recorded c) _ he' with
      ⟨row, value, weight, hrow', hreported, hvalue, hpos⟩
    obtain rfl := hrow'.unique hrow
    have hnull : Scalar.lt (0 : Float) 0 = false := rfl
    have htwo : value = 2 := by
      match value with
      | 0 | 1 | 3 =>
          cases hvalue
          rw [hnull] at hpos
          cases hpos
      | 2 =>
          rfl
      | _ + 4 =>
          cases hvalue
    rw [htwo] at hreported
    exact ⟨c, _, hc, hrow, he', hreported⟩
  · rcases hexists .empty 2 [] hroom (by decide) with ⟨c, hc⟩
    have hrun : exists cause e', applyReadout swappedSlots (recorded c) = (refuse cause, e') := by
      cases hc
      exact ⟨_, _, rfl⟩
    rcases hrun with ⟨cause, e', he'⟩
    exact ⟨c, cause, e', hc, he', hrefused _ _ _ he'⟩

def doubledBit : Instruction Float :=
  (Instruction.readoutError [0] [[0, 1], [1, 0]]).withRegisters [0, 0]

/-- The bit that is listed twice holds the second bit of what is read back, not the first. -/
theorem applyReadout_doubledBit :
    doubledBit.memory.Nodup ∧ doubledBit.memory.length < wordBits ∧
      (forall row, row ∈ doubledBit.readout -> row.length ≤ twoPow doubledBit.memory.length) ∧
      exists e', applyReadout doubledBit (recorded .empty) = (.ok (), e') ∧
        Classical.read e'.machine.classical.memory doubledBit.memory = .ok 1 ∧
        ¬forall i bit, doubledBit.registers[i]? = some bit ->
          bitAt e'.machine.classical.register bit = Nat.testBit 1 i := by
  have hdrawn : Classical.empty.applyReadout doubledBit (.ofSeed 0) =
      .ok (⟨[true], [false]⟩, (Source.ofSeed 0).advance) := by
    decide +kernel
  have he' := (applyReadout_eq_ok_iff (e := recorded .empty)).mpr ⟨_, _, hdrawn, rfl⟩
  refine ⟨by decide, by decide, by decide, _, he', rfl, ?_⟩
  intro h
  exact absurd (h 0 0 rfl) (by decide)

end Experiment.InPlace

end MixedState
