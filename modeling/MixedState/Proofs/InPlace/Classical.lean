import MixedState.InPlace.Classical
import MixedState.Proofs.InPlace.Procedure

/-!
# Bits and saved data in place

Once the first bit is written nothing is refused any more.  A map entry that a save
creates is empty, so that no average in it can be refused.
-/

namespace MixedState

open Procedure

variable {R : Type}

namespace Classical.InPlace

variable {c : Classical} {outcome : Nat} {memory registers : List Nat}

@[simp] theorem noRefusal_writeBits (outcome : Nat) (bits : List Bool) (first : Nat)
    (slots : List Nat) : NoRefusal (Classical.writeBits outcome bits first slots) := by
  induction slots generalizing bits first with
  | nil =>
      exact noRefusal_ok bits
  | cons slot rest ih =>
      unfold Classical.writeBits
      simp [ih]

theorem noRefusal_record (c : Classical) (outcome : Nat) (memory registers : List Nat) :
    NoRefusal (c.record outcome memory registers) := by
  simp [Classical.record]

theorem carriesOut_writeBits (outcome : Nat) (bits : List Bool) (first : Nat)
    (slots : List Nat) :
    CarriesOut (writeBits outcome first slots) bits
      (Classical.writeBits outcome bits first slots) := by
  induction slots generalizing bits first with
  | nil =>
      exact carriesOut_pure bits
  | cons slot rest ih =>
      have hcheck : Classical.writeBits outcome bits first (slot :: rest) =
          (orCrash (first < wordBits && slot + 1 < bufferLimit) >>= fun _ =>
            Classical.writeBits outcome (setBit bits slot (outcome.testBit first))
              (first + 1) rest) := by
        rw [Classical.writeBits]
        by_cases hroom : first < wordBits ∧ slot + 1 < bufferLimit
        · rw [if_pos hroom, orCrash_of_true (by simpa using hroom)]
          rfl
        · rw [if_neg hroom, orCrash, if_neg (by simpa using hroom)]
          rfl
      rw [hcheck]
      apply carriesOut_check
      intro _ _
      exact carriesOut_get (carriesOut_then (carriesOut_set _) (fun written _ => ih written _)
        fun written _ => noRefusal_writeBits _ _ _ _)

theorem carriesOut_record :
    CarriesOut (record outcome memory registers) c (c.record outcome memory registers) := by
  have hrecord : c.record outcome memory registers =
      ((Classical.writeBits outcome c.memory 0 memory >>= fun bits =>
        .ok { c with memory := bits }) >>= fun d =>
          Classical.writeBits outcome d.register 0 registers >>= fun bits =>
            .ok { d with register := bits }) := by
    simp only [Classical.record, bind_assoc, ok_bind]
    rfl
  rw [hrecord]
  apply carriesOut_then
  · exact carriesOut_inside rfl (carriesOut_writeBits _ _ _ _)
  · intro d _
    exact carriesOut_inside rfl (carriesOut_writeBits _ _ _ _)
  · intro d _
    simp

theorem record_register_first :
    c.record outcome memory registers =
      ((Classical.writeBits outcome c.register 0 registers >>= fun bits =>
        .ok { c with register := bits }) >>= fun d =>
          Classical.writeBits outcome d.memory 0 memory >>= fun bits =>
            .ok { d with memory := bits }) := by
  simp only [Classical.record, bind_assoc, ok_bind]
  rw [bind_comm_of_noRefusal (noRefusal_writeBits _ _ _ _) (noRefusal_writeBits _ _ _ _)]
  rfl

theorem carriesOut_applyBfunc {op : Instruction R} :
    CarriesOut (applyBfunc op) c (c.applyBfunc op) := by
  unfold applyBfunc Classical.applyBfunc
  rcases op.texts with _ | ⟨mask, _ | ⟨target, rest⟩⟩
  · exact carriesOut_error _
  · exact carriesOut_error _
  · cases op.relation with
    | none =>
        exact carriesOut_error _
    | some relation =>
        cases op.registers with
        | nil =>
            exact carriesOut_error _
        | cons bit _ =>
            apply carriesOut_get
            apply carriesOut_check
            intro maskBits _
            apply carriesOut_check
            intro targetBits _
            dsimp only
            rw [record_register_first]
            apply carriesOut_then
            · exact carriesOut_inside rfl (carriesOut_writeBits _ _ _ _)
            · intro d _
              exact carriesOut_inside rfl (carriesOut_writeBits _ _ _ _)
            · intro d _
              simp

end Classical.InPlace

namespace Archive.InPlace

variable [Scalar R] {β : Type} {archive : Archive R} {key slot what : String}
  {data : SavedData R}

omit [Scalar R] in
theorem entry_lawful {slots : Field (Archive R) (KeyMap β)} (h : slots.Lawful) (key : String)
    (absent : β) : (entry slots key absent).Lawful where
  get_set := by
    intro archive value
    unfold entry
    dsimp only
    rw [h.get_set, KeyMap.find?_insert_self]
    rfl
  set_set := by
    intro archive value other
    unfold entry
    dsimp only
    rw [h.get_set, h.set_set, KeyMap.insert_insert]

omit [Scalar R] in
theorem orDefault_of_some {slots : Field (Archive R) (KeyMap β)} {absent value : β}
    (h : (slots.get archive).find? key = some value) :
    orDefault slots key absent archive = (.ok (), archive) := by
  unfold orDefault
  rw [get_bind, h]
  rfl

omit [Scalar R] in
theorem orDefault_of_none {slots : Field (Archive R) (KeyMap β)} {absent : β}
    (h : (slots.get archive).find? key = none) :
    orDefault slots key absent archive =
      (.ok (), (entry slots key absent).set archive absent) := by
  unfold orDefault
  rw [get_bind, h]
  rfl

omit [Scalar R] in
theorem every_lawful : (everyField : Field (Archive R) _).Lawful :=
  ⟨fun _ _ => rfl, fun _ _ _ => rfl⟩

omit [Scalar R] in
theorem average_lawful : (averageField : Field (Archive R) _).Lawful :=
  ⟨fun _ _ => rfl, fun _ _ _ => rfl⟩

omit [Scalar R] in
theorem memoryLatest_lawful : (memoryLatestField : Field (Archive R) _).Lawful :=
  ⟨fun _ _ => rfl, fun _ _ _ => rfl⟩

omit [Scalar R] in
theorem memoryEvery_lawful : (memoryEveryField : Field (Archive R) _).Lawful :=
  ⟨fun _ _ => rfl, fun _ _ _ => rfl⟩

omit [Scalar R] in
theorem memoryAverage_lawful : (memoryAverageField : Field (Archive R) _).Lawful :=
  ⟨fun _ _ => rfl, fun _ _ _ => rfl⟩

omit [Scalar R] in
theorem modifyField_eq (field : Field (Archive R) β) (f : β -> β) :
    modifyField field f archive = (.ok (), field.set archive (f (field.get archive))) :=
  rfl

omit [Scalar R] in
theorem orDefault_then {slots : Field (Archive R) (KeyMap β)} (h : slots.Lawful) {absent : β}
    {p : Procedure (Archive R) Unit} {f : β -> β}
    (hp : forall archive, p archive = (.ok (), (entry slots key absent).set archive
      (f ((entry slots key absent).get archive)))) :
    (orDefault slots key absent >>= fun _ => p) archive =
      (.ok (), (entry slots key absent).set archive
        (f ((entry slots key absent).get archive))) := by
  cases hfind : (slots.get archive).find? key with
  | some value =>
      rw [bind_of_eq_ok (orDefault_of_some hfind), hp]
  | none =>
      have habsent : (entry slots key absent).get archive = absent := by
        unfold entry
        dsimp only
        rw [hfind]
        rfl
      rw [bind_of_eq_ok (orDefault_of_none hfind), hp, (entry_lawful h key absent).get_set,
        (entry_lawful h key absent).set_set, habsent]

theorem carriesOut_addAverage {slots : Field (Archive R) (KeyMap (Average R))}
    (h : slots.Lawful) :
    CarriesOut (addAverage slots slot data what) archive
      (Archive.addAverage (slots.get archive) slot data what >>= fun present =>
        .ok (slots.set archive present)) := by
  apply carriesOut_get
  unfold Archive.addAverage Average.add?
  cases hfind : (slots.get archive).find? slot with
  | none =>
      exact Agree.refl _
  | some average =>
      dsimp only
      cases average.sum.add? data with
      | none =>
          exact carriesOut_error _
      | some sum =>
          left
          change (_, (entry slots slot average).set ((entry slots slot average).set archive
            ⟨sum, average.count⟩) _) = _
          rw [(entry_lawful h slot average).get_set, (entry_lawful h slot average).set_set]
          rfl

theorem carriesOut_save (memory key what : String) (mode : SaveMode) (data : SavedData R) :
    CarriesOut (save memory key what mode data) archive
      (archive.save memory key what mode data) := by
  rcases mode with ⟨combine, perMemory⟩
  cases combine with
  | latest =>
      cases perMemory with
      | false =>
          exact Agree.refl _
      | true =>
          unfold save CarriesOut
          dsimp only
          rw [orDefault_then memoryLatest_lawful fun _ => modifyField_eq _ _]
          exact Agree.refl _
  | every =>
      cases perMemory with
      | false =>
          unfold save CarriesOut
          dsimp only
          rw [orDefault_then every_lawful fun _ => modifyField_eq _ _]
          exact Agree.refl _
      | true =>
          unfold save CarriesOut
          dsimp only
          rw [orDefault_then memoryEvery_lawful (f := fun slots =>
            slots.insert memory ((slots.find? memory).getD [] ++ [data])) fun archive =>
              orDefault_then (entry_lawful memoryEvery_lawful key .empty) fun _ =>
                modifyField_eq _ _]
          exact Agree.refl _
  | average =>
      cases perMemory with
      | false =>
          exact carriesOut_addAverage average_lawful
      | true =>
          unfold save CarriesOut
          dsimp only
          have hlawful := entry_lawful (memoryAverage_lawful (R := R)) key .empty
          cases hfind : archive.memoryAverage.find? key with
          | some slots =>
              rw [bind_of_eq_ok (orDefault_of_some hfind)]
              exact carriesOut_addAverage hlawful
          | none =>
              -- The new map has no average that the data could be refused for.
              have hfirst : Archive.addAverage KeyMap.empty memory data what =
                  .ok (KeyMap.empty.insert memory (.ofFirst data)) := rfl
              have hsave : CarriesOut (addAverage (entry memoryAverageField key .empty) memory
                  data what) ((entry memoryAverageField key .empty).set archive .empty) _ :=
                carriesOut_addAverage hlawful
              rw [hlawful.get_set, hfirst, ok_bind, hlawful.set_set] at hsave
              unfold Archive.save
              dsimp only
              rw [bind_of_eq_ok (orDefault_of_none hfind), hfind]
              exact hsave

end Archive.InPlace

end MixedState
