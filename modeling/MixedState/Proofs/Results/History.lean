import MixedState.Proofs.InPlace.Classical
import MixedState.Proofs.Results.Sum

/-!
# The archive as the record of its history

Each call that saves a value goes to one slot of the archive.  What a slot holds is a
function of the values that were accepted there, in their order, whatever calls went to
other slots in between.
-/

namespace MixedState

/-- A place of the archive.  There is a text of the classical memory where values are
kept apart by it. -/
@[ext] structure Slot where
  combine : Combine
  key : String
  memory : Option String
  deriving DecidableEq

def SaveMode.slot (mode : SaveMode) (memory key : String) : Slot :=
  ⟨mode.combine, key, if mode.perMemory then some memory else none⟩

def Kept (R : Type) : Combine -> Type
  | .latest => SavedData R
  | .every => List (SavedData R)
  | .average => Average R

variable {R : Type}

theorem KeyMap.find?_of_isEmpty {α : Type} {m : KeyMap α} (h : m.isEmpty = true)
    (key : String) : m.find? key = none := by
  rcases m with ⟨entries⟩
  cases entries with
  | nil =>
      rfl
  | cons entry rest =>
      cases h

/-!
## Slots
-/

namespace Archive

def slots (archive : Archive R) : (combine : Combine) -> KeyMap (Kept R combine)
  | .latest => archive.latest
  | .every => archive.every
  | .average => archive.average

def memorySlots (archive : Archive R) : (combine : Combine) -> KeyMap (KeyMap (Kept R combine))
  | .latest => archive.memoryLatest
  | .every => archive.memoryEvery
  | .average => archive.memoryAverage

def setSlots (archive : Archive R) : (combine : Combine) -> KeyMap (Kept R combine) -> Archive R
  | .latest, slots => { archive with latest := slots }
  | .every, slots => { archive with every := slots }
  | .average, slots => { archive with average := slots }

def setMemorySlots (archive : Archive R) :
    (combine : Combine) -> KeyMap (KeyMap (Kept R combine)) -> Archive R
  | .latest, slots => { archive with memoryLatest := slots }
  | .every, slots => { archive with memoryEvery := slots }
  | .average, slots => { archive with memoryAverage := slots }

def read (archive : Archive R) (slot : Slot) : Option (Kept R slot.combine) :=
  match slot.memory with
  | none => (archive.slots slot.combine).find? slot.key
  | some memory =>
      ((archive.memorySlots slot.combine).find? slot.key).bind fun slots => slots.find? memory

def write (archive : Archive R) (slot : Slot) (kept : Kept R slot.combine) : Archive R :=
  match slot.memory with
  | none =>
      archive.setSlots slot.combine ((archive.slots slot.combine).insert slot.key kept)
  | some memory =>
      let slots := ((archive.memorySlots slot.combine).find? slot.key).getD .empty
      archive.setMemorySlots slot.combine
        ((archive.memorySlots slot.combine).insert slot.key (slots.insert memory kept))

variable {archive : Archive R} {combine other : Combine}

theorem slots_setSlots_self (slots : KeyMap (Kept R combine)) :
    (archive.setSlots combine slots).slots combine = slots := by
  cases combine <;> rfl

theorem slots_setSlots_of_ne (h : other ≠ combine) (slots : KeyMap (Kept R combine)) :
    (archive.setSlots combine slots).slots other = archive.slots other := by
  cases combine <;> cases other <;> first | rfl | exact absurd rfl h

theorem memorySlots_setSlots (slots : KeyMap (Kept R combine)) (other : Combine) :
    (archive.setSlots combine slots).memorySlots other = archive.memorySlots other := by
  cases combine <;> rfl

theorem memorySlots_setMemorySlots_self (slots : KeyMap (KeyMap (Kept R combine))) :
    (archive.setMemorySlots combine slots).memorySlots combine = slots := by
  cases combine <;> rfl

theorem memorySlots_setMemorySlots_of_ne (h : other ≠ combine)
    (slots : KeyMap (KeyMap (Kept R combine))) :
    (archive.setMemorySlots combine slots).memorySlots other = archive.memorySlots other := by
  cases combine <;> cases other <;> first | rfl | exact absurd rfl h

theorem slots_setMemorySlots (slots : KeyMap (KeyMap (Kept R combine))) (other : Combine) :
    (archive.setMemorySlots combine slots).slots other = archive.slots other := by
  cases combine <;> rfl

theorem read_write_self (slot : Slot) (kept : Kept R slot.combine) :
    (archive.write slot kept).read slot = some kept := by
  rcases slot with ⟨combine, key, memory⟩
  cases memory with
  | none =>
      simp only [read, write, slots_setSlots_self, KeyMap.find?_insert_self]
  | some memory =>
      simp only [read, write, memorySlots_setMemorySlots_self, KeyMap.find?_insert_self,
        Option.bind_some]

theorem read_write_of_ne {slot other : Slot} (h : other ≠ slot) (kept : Kept R slot.combine) :
    (archive.write slot kept).read other = archive.read other := by
  rcases slot with ⟨combine, key, memory⟩
  rcases other with ⟨combine', key', memory'⟩
  cases memory with
  | none =>
      cases memory' with
      | some memory' =>
          simp only [read, write, memorySlots_setSlots]
      | none =>
          simp only [read, write]
          by_cases hcombine : combine' = combine
          · subst hcombine
            have hkey : key' ≠ key := by
              intro hkey
              exact h (by rw [hkey])
            rw [slots_setSlots_self, KeyMap.find?_insert_of_ne hkey]
          · rw [slots_setSlots_of_ne hcombine]
  | some memory =>
      cases memory' with
      | none =>
          simp only [read, write, slots_setMemorySlots]
      | some memory' =>
          simp only [read, write]
          by_cases hcombine : combine' = combine
          · subst hcombine
            rw [memorySlots_setMemorySlots_self]
            by_cases hkey : key' = key
            · subst hkey
              have hmemory : memory' ≠ memory := by
                intro hmemory
                exact h (by rw [hmemory])
              rw [KeyMap.find?_insert_self, Option.bind_some, KeyMap.find?_insert_of_ne hmemory]
              cases (archive.memorySlots combine').find? key' <;> rfl
            · rw [KeyMap.find?_insert_of_ne hkey]
          · rw [memorySlots_setMemorySlots_of_ne hcombine]

theorem slots_of_isEmpty (h : archive.isEmpty = true) (combine : Combine) :
    (archive.slots combine).isEmpty = true ∧ (archive.memorySlots combine).isEmpty = true := by
  simp only [isEmpty, Bool.and_eq_true] at h
  rcases h with ⟨⟨⟨⟨⟨hlatest, hevery⟩, haverage⟩, hmemoryLatest⟩, hmemoryEvery⟩, hmemoryAverage⟩
  cases combine with
  | latest =>
      exact ⟨hlatest, hmemoryLatest⟩
  | every =>
      exact ⟨hevery, hmemoryEvery⟩
  | average =>
      exact ⟨haverage, hmemoryAverage⟩

theorem read_of_isEmpty (h : archive.isEmpty = true) (slot : Slot) :
    archive.read slot = none := by
  rcases slot with ⟨combine, key, memory⟩
  rcases slots_of_isEmpty h combine with ⟨hslots, hmemory⟩
  cases memory with
  | none =>
      exact KeyMap.find?_of_isEmpty hslots key
  | some memory =>
      change ((archive.memorySlots combine).find? key).bind _ = none
      rw [KeyMap.find?_of_isEmpty hmemory key]
      rfl

theorem isEmpty_write (slot : Slot) (kept : Kept R slot.combine) :
    (archive.write slot kept).isEmpty = false := by
  cases hempty : (archive.write slot kept).isEmpty with
  | false =>
      rfl
  | true =>
      have hnone := read_of_isEmpty hempty slot
      rw [read_write_self] at hnone
      cases hnone

end Archive

/-!
## One call
-/

variable [Scalar R]

/-- An average after one more value, which is the first one where there is none yet;
`name` stands in the text of a refusal. -/
def Average.next (name : String) (kept : Option (Average R)) (data : SavedData R) :
    Outcome (Average R) :=
  match kept with
  | none => .ok (Average.ofFirst data)
  | some average =>
      match average.add? data with
      | some average => .ok average
      | none => refuse (.elementCount name average.sum.size data.size)

def Kept.add (name : String) : {combine : Combine} -> Option (Kept R combine) -> SavedData R ->
    Outcome (Kept R combine)
  | .latest, _, data => .ok data
  | .every, kept, data => .ok (Archive.append data kept)
  | .average, kept, data => Average.next name kept data

namespace Archive

theorem getD_find? {α : Type} (key : String) (slots : Option (KeyMap α)) :
    (slots.getD .empty).find? key = slots.bind fun slots => slots.find? key := by
  cases slots <;> rfl

theorem addAverage_map {α : Type} (slots : KeyMap (Average R)) (slot : String)
    (data : SavedData R) (what : String) (f : KeyMap (Average R) -> α) :
    (addAverage slots slot data what >>= fun slots => pure (f slots)) =
      (Average.next s!"{what} '{slot}'" (slots.find? slot) data).map
        fun average => f (slots.insert slot average) := by
  unfold addAverage
  cases hfind : slots.find? slot with
  | none =>
      rfl
  | some average =>
      unfold Average.next
      dsimp only
      cases average.add? data <;> rfl

theorem save_eq (archive : Archive R) (memory key what : String) (mode : SaveMode)
    (data : SavedData R) :
    archive.save memory key what mode data =
      (Kept.add s!"{what} '{if mode.perMemory then memory else key}'"
        (archive.read (mode.slot memory key)) data).map
          (archive.write (mode.slot memory key)) := by
  rcases mode with ⟨combine, perMemory⟩
  cases combine with
  | latest =>
      cases perMemory <;> rfl
  | every =>
      cases perMemory with
      | false =>
          rfl
      | true =>
          have hkept : (((archive.memoryEvery.find? key).getD .empty).find? memory) =
              (archive.memoryEvery.find? key).bind fun slots => slots.find? memory :=
            getD_find? memory _
          unfold save KeyMap.update
          dsimp only
          rw [hkept]
          rfl
  | average =>
      cases perMemory with
      | false =>
          exact addAverage_map _ _ _ _ _
      | true =>
          have hkept : (((archive.memoryAverage.find? key).getD .empty).find? memory) =
              (archive.memoryAverage.find? key).bind fun slots => slots.find? memory :=
            getD_find? memory _
          have hsave := addAverage_map ((archive.memoryAverage.find? key).getD .empty) memory data
            what fun slots =>
              { archive with memoryAverage := archive.memoryAverage.insert key slots }
          rw [hkept] at hsave
          exact hsave

end Archive

/-!
## What a slot holds of its history
-/

structure Average.Records (average : Average R) (first : SavedData R)
    (rest : List (SavedData R)) : Prop where
  count : average.count = rest.length + 1
  sum : first.SumOf rest average.sum
  mean : average.sum.ScaledBy (1 / Scalar.ofNat (rest.length + 1)) average.mean

namespace Average

variable {average : Average R} {first data : SavedData R} {rest : List (SavedData R)}
  {name : String}

theorem records_ofFirst (data : SavedData R) : (ofFirst data).Records data [] :=
  ⟨rfl, SavedData.sumOf_self data, data.scaledBy_scale _⟩

theorem Records.next_of_sameShape (h : average.Records first rest)
    (hshape : first.SameShape data) :
    exists total, next name (some average) data = .ok total ∧
      total.Records first (rest ++ [data]) := by
  rcases h.sum.add hshape with ⟨sum, hadd, hsum⟩
  have hcount : average.count + 1 = (rest ++ [data]).length + 1 := by
    rw [h.count, List.length_append]
    rfl
  have hnext : average.add? data = some ⟨sum, average.count + 1⟩ := by
    unfold add?
    rw [hadd]
    rfl
  refine ⟨⟨sum, average.count + 1⟩, ?_, hcount, hsum, ?_⟩
  · simp only [next, hnext]
  · rw [← hcount]
    exact sum.scaledBy_scale _

theorem Records.next_of_not_sameShape (h : average.Records first rest)
    (hshape : ¬first.SameShape data) :
    next name (some average) data =
      .error (.refused (.elementCount name average.sum.size data.size)) := by
  have hadd : average.sum.add? data = none := by
    rw [SavedData.add?_eq_none_iff, h.sum.sameShape_iff]
    exact hshape
  have hnext : average.add? data = none := by
    unfold add?
    rw [hadd]
    rfl
  simp only [next, hnext]
  rfl

theorem next_ne_crash (kept : Option (Average R)) : next name kept data ≠ crash := by
  intro h
  unfold next at h
  cases kept with
  | none =>
      cases h
  | some average =>
      dsimp only at h
      cases hadd : average.add? data <;> rw [hadd] at h <;> cases h

end Average

namespace Kept

def Records : {combine : Combine} -> Option (Kept R combine) -> List (SavedData R) -> Prop
  | .latest, kept, data => kept = data.getLast?
  | .every, kept, data => kept = if data.isEmpty then none else some data
  | .average, kept, [] => kept = none
  | .average, kept, first :: rest =>
      exists average : Average R, kept = some average ∧ average.Records first rest

def Refuses (combine : Combine) (accepted : List (SavedData R)) (data : SavedData R) : Prop :=
  combine = .average ∧ exists first, accepted.head? = some first ∧ ¬first.SameShape data

variable {combine : Combine} {kept : Option (Kept R combine)} {accepted : List (SavedData R)}
  {data : SavedData R} {name : String}

theorem records_nil : Records (none : Option (Kept R combine)) [] := by
  cases combine <;> rfl

theorem add_ne_crash (kept : Option (Kept R combine)) : add name kept data ≠ crash := by
  cases combine with
  | latest =>
      intro h
      cases h
  | every =>
      intro h
      cases h
  | average =>
      exact Average.next_ne_crash kept

theorem Records.add_of_refuses (h : Records kept accepted) (name : String)
    (hrefuses : Refuses combine accepted data) :
    exists cause, add name kept data = .error (.refused cause) := by
  rcases hrefuses with ⟨rfl, first, hfirst, hshape⟩
  cases accepted with
  | nil =>
      cases hfirst
  | cons head rest =>
      cases hfirst
      rcases h with ⟨average, rfl, haverage⟩
      exact ⟨_, haverage.next_of_not_sameShape hshape⟩

theorem Records.add_of_not_refuses (h : Records kept accepted) (name : String)
    (hrefuses : ¬Refuses combine accepted data) :
    exists next, add name kept data = .ok next ∧ Records (some next) (accepted ++ [data]) := by
  cases combine with
  | latest =>
      refine ⟨data, rfl, ?_⟩
      change some data = _
      rw [List.getLast?_concat]
  | every =>
      refine ⟨Archive.append data kept, rfl, ?_⟩
      change kept = _ at h
      change some (Archive.append data kept) = _
      rw [h]
      cases accepted <;> rfl
  | average =>
      cases accepted with
      | nil =>
          change kept = none at h
          subst h
          exact ⟨Average.ofFirst data, rfl, Average.ofFirst data, rfl,
            Average.records_ofFirst data⟩
      | cons first rest =>
          rcases h with ⟨average, rfl, haverage⟩
          by_cases hshape : first.SameShape data
          · rcases haverage.next_of_sameShape hshape with ⟨total, hnext, htotal⟩
            exact ⟨total, hnext, total, rfl, htotal⟩
          · exact absurd ⟨rfl, first, rfl, hshape⟩ hrefuses

end Kept

/-!
## Calls and their history
-/

structure SaveCall (R : Type) where
  classical : Classical
  key : String
  data : SavedData R
  kind : Kind
  mode : SaveMode

def SaveCall.slot (call : SaveCall R) : Slot :=
  call.mode.slot call.classical.memoryHex call.key

def SaveCall.run (call : SaveCall R) : Procedure (Archive R) Unit :=
  Archive.InPlace.save call.classical.memoryHex call.key call.kind.name call.mode call.data

/-- A call changes its slot and no other, and where it fails it changes nothing. -/
theorem SaveCall.run_eq (call : SaveCall R) (archive : Archive R) :
    exists name, call.run archive = Procedure.settle archive
      ((Kept.add name (archive.read call.slot) call.data).map (archive.write call.slot)) := by
  let name := s!"{call.kind.name} '{if call.mode.perMemory then call.classical.memoryHex
    else call.key}'"
  have hrun : Procedure.Agree (call.run archive) (Procedure.settle archive
      ((Kept.add name (archive.read call.slot) call.data).map (archive.write call.slot))) := by
    have hsave : Procedure.CarriesOut call.run archive _ :=
      Archive.InPlace.carriesOut_save call.classical.memoryHex call.key call.kind.name call.mode
        call.data
    rw [Archive.save_eq] at hsave
    exact hsave
  refine ⟨name, ?_⟩
  rcases hrun with heq | ⟨_, hcrash⟩
  · exact heq
  · cases hadd : Kept.add name (archive.read call.slot) call.data with
    | ok kept =>
        rw [hadd] at hcrash
        cases hcrash
    | error fault =>
        rw [hadd] at hcrash
        cases hcrash
        exact absurd hadd (Kept.add_ne_crash _)

structure History (R : Type) where
  accepted : List (SaveCall R)
  archive : Archive R

namespace History

def start : History R :=
  ⟨[], .empty⟩

def step (history : History R) (call : SaveCall R) : History R :=
  match call.run history.archive with
  | (.ok _, archive) => ⟨history.accepted ++ [call], archive⟩
  | (.error _, archive) => ⟨history.accepted, archive⟩

def replay (calls : List (SaveCall R)) : History R :=
  calls.foldl step start

def valuesAt (history : History R) (slot : Slot) : List (SavedData R) :=
  (history.accepted.filter fun call => call.slot = slot).map SaveCall.data

structure Faithful (history : History R) : Prop where
  slots : forall slot, Kept.Records (history.archive.read slot) (history.valuesAt slot)
  isEmpty : history.archive.isEmpty = true ↔ history.accepted = []

def Refuses (history : History R) (call : SaveCall R) : Prop :=
  Kept.Refuses call.mode.combine (history.valuesAt call.slot) call.data

theorem faithful_start : (start : History R).Faithful where
  slots := by
    intro slot
    have hnone : (start : History R).archive.read slot = none :=
      Archive.read_of_isEmpty rfl slot
    rw [hnone]
    exact Kept.records_nil
  isEmpty := by
    constructor
    · intro _
      rfl
    · intro _
      rfl

variable {history : History R} {call : SaveCall R}

theorem Faithful.run_of_refuses (h : history.Faithful) (hrefuses : history.Refuses call) :
    exists cause, call.run history.archive = (.error (.refused cause), history.archive) := by
  rcases call.run_eq history.archive with ⟨name, hrun⟩
  rcases (h.slots call.slot).add_of_refuses name hrefuses with ⟨cause, hadd⟩
  rw [hadd] at hrun
  exact ⟨cause, hrun⟩

theorem Faithful.run_of_not_refuses (h : history.Faithful) (hrefuses : ¬history.Refuses call) :
    exists kept, call.run history.archive = (.ok (), history.archive.write call.slot kept) ∧
      Kept.Records (some kept) (history.valuesAt call.slot ++ [call.data]) := by
  rcases call.run_eq history.archive with ⟨name, hrun⟩
  rcases (h.slots call.slot).add_of_not_refuses name hrefuses with
    ⟨kept, hadd, hkept⟩
  rw [hadd] at hrun
  exact ⟨kept, hrun, hkept⟩

omit [Scalar R] in
theorem valuesAt_concat (accepted : List (SaveCall R)) (archive : Archive R)
    (call : SaveCall R) (slot : Slot) :
    valuesAt ⟨accepted ++ [call], archive⟩ slot =
      if call.slot = slot then valuesAt ⟨accepted, archive⟩ slot ++ [call.data]
      else valuesAt ⟨accepted, archive⟩ slot := by
  unfold valuesAt
  rw [List.filter_append, List.map_append]
  by_cases hslot : call.slot = slot
  · simp [hslot]
  · simp [hslot]

theorem Faithful.step (h : history.Faithful) (call : SaveCall R) :
    (history.step call).Faithful := by
  by_cases hrefuses : history.Refuses call
  · rcases h.run_of_refuses hrefuses with ⟨cause, hrun⟩
    have hstep : history.step call = history := by
      unfold History.step
      rw [hrun]
    rw [hstep]
    exact h
  · rcases h.run_of_not_refuses hrefuses with ⟨kept, hrun, hkept⟩
    have hstep : history.step call =
        ⟨history.accepted ++ [call], history.archive.write call.slot kept⟩ := by
      unfold History.step
      rw [hrun]
    rw [hstep]
    constructor
    · intro slot
      rw [valuesAt_concat]
      by_cases hslot : call.slot = slot
      · subst hslot
        rw [if_pos rfl, Archive.read_write_self]
        exact hkept
      · rw [if_neg hslot, Archive.read_write_of_ne (Ne.symm hslot)]
        exact h.slots slot
    · rw [Archive.isEmpty_write]
      simp

theorem faithful_replay (calls : List (SaveCall R)) : (replay calls).Faithful := by
  have hrun : forall history : History R, history.Faithful ->
      (calls.foldl History.step history).Faithful := by
    induction calls with
    | nil =>
        intro history h
        exact h
    | cons call rest ih =>
        intro history h
        exact ih (history.step call) (h.step call)
  exact hrun start faithful_start

/-- After any calls, failed ones among them, each slot holds the latest, all or the average
of the values that were accepted there.  One more call fails exactly where its value
cannot be averaged with the first one of its slot, and then changes nothing; no call
changes another slot. -/
theorem replay_faithful (calls : List (SaveCall R)) :
    let history := replay calls
    (forall slot, Kept.Records (history.archive.read slot) (history.valuesAt slot)) ∧
      (history.archive.isEmpty = true ↔ history.accepted = []) ∧
      forall call : SaveCall R,
        ((call.run history.archive).1 = .ok () ↔ ¬history.Refuses call) ∧
        ((exists cause, call.run history.archive = (.error (.refused cause), history.archive)) ↔
          history.Refuses call) ∧
        forall slot, slot ≠ call.slot ->
          (call.run history.archive).2.read slot = history.archive.read slot := by
  intro history
  have h : history.Faithful := faithful_replay calls
  refine ⟨h.slots, h.isEmpty, ?_⟩
  intro call
  by_cases hrefuses : history.Refuses call
  · rcases h.run_of_refuses hrefuses with ⟨cause, hrun⟩
    rw [hrun]
    simp [hrefuses]
  · rcases h.run_of_not_refuses hrefuses with ⟨kept, hrun, _⟩
    rw [hrun]
    refine ⟨by simp [hrefuses], by simp [hrefuses], ?_⟩
    intro slot hslot
    exact Archive.read_write_of_ne hslot kept

end History

end MixedState
