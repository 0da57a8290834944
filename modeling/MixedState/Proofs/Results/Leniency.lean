import MixedState.Proofs.Results.History

/-!
# Archives that take as much as another

A slot that averages refuses values of another shape than it holds.  An archive in which
fewer values were saved refuses nothing that the other takes, whatever both save next.
-/

namespace MixedState

variable {R : Type}

/-!
## Shapes
-/

namespace SavedData

theorem SameShape.congr {a b : SavedData R} (h : a.SameShape b) (data : SavedData R) :
    a.SameShape data ↔ b.SameShape data := by
  cases a <;> cases b <;> cases data <;> simp_all [SameShape]

variable [Scalar R]

theorem sameShape_of_add? {a b sum : SavedData R} (h : a.add? b = some sum) : a.SameShape b := by
  apply Classical.byContradiction
  intro hshape
  rw [add?_eq_none_iff.mpr hshape] at h
  cases h

theorem sameShape_add? {a b sum : SavedData R} (h : a.add? b = some sum) (data : SavedData R) :
    sum.SameShape data ↔ a.SameShape data := by
  rcases (sumOf_self a).add (sameShape_of_add? h) with ⟨total, htotal, hsum⟩
  cases h.symm.trans htotal
  exact hsum.sameShape_iff data

end SavedData

/-!
## Slots
-/

namespace Kept

def Takes : {combine : Combine} -> Option (Kept R combine) -> SavedData R -> Prop
  | .average, some average, data => SavedData.SameShape (Average.sum average) data
  | _, _, _ => True

variable [Scalar R] {combine : Combine} {kept : Option (Kept R combine)} {next : Kept R combine}
  {name : String} {data : SavedData R}

theorem add_average_of_none {average : Average R} (h : average.sum.add? data = none) :
    add name (some average : Option (Kept R .average)) data =
      .error (.refused (.elementCount name average.sum.size data.size)) := by
  simp only [add, Average.next, Average.add?, h, Option.map_none]
  rfl

theorem add_average_of_some {average : Average R} {sum : SavedData R}
    (h : average.sum.add? data = some sum) :
    add name (some average : Option (Kept R .average)) data =
      .ok (⟨sum, average.count + 1⟩ : Average R) := by
  simp only [add, Average.next, Average.add?, h, Option.map_some]
  rfl

theorem exists_add_iff : (exists next, add name kept data = .ok next) ↔ Takes kept data := by
  cases combine with
  | latest =>
      exact ⟨fun _ => trivial, fun _ => ⟨_, rfl⟩⟩
  | every =>
      exact ⟨fun _ => trivial, fun _ => ⟨_, rfl⟩⟩
  | average =>
      cases kept with
      | none =>
          exact ⟨fun _ => trivial, fun _ => ⟨_, rfl⟩⟩
      | some average =>
          cases hadd : average.sum.add? data with
          | none =>
              constructor
              · rintro ⟨next, hnext⟩
                rw [add_average_of_none hadd] at hnext
                cases hnext
              · intro hshape
                exact absurd hshape (SavedData.add?_eq_none_iff.mp hadd)
          | some sum =>
              exact ⟨fun _ => SavedData.sameShape_of_add? hadd,
                fun _ => ⟨_, add_average_of_some hadd⟩⟩

theorem takes_add (h : add name kept data = .ok next) (value : SavedData R) :
    Takes (some next) value ↔ combine = .average -> data.SameShape value := by
  cases combine with
  | latest | every =>
      exact ⟨fun _ hcombine => (nomatch hcombine), fun _ => trivial⟩
  | average =>
      have hshape : (Average.sum next).SameShape value ↔ data.SameShape value := by
        cases kept with
        | none =>
            cases h
            rfl
        | some average =>
            cases hadd : average.sum.add? data with
            | none =>
                rw [add_average_of_none hadd] at h
                cases h
            | some sum =>
                rw [add_average_of_some hadd] at h
                cases h
                exact (SavedData.sameShape_add? hadd value).trans
                  ((SavedData.sameShape_of_add? hadd).congr value)
      exact ⟨fun hvalue _ => hshape.mp hvalue, fun hvalue => hshape.mpr (hvalue rfl)⟩

theorem takes_of_takes_add (h : add name kept data = .ok next) {value : SavedData R}
    (hvalue : Takes (some next) value) : Takes kept value := by
  have hdata : Takes kept data := exists_add_iff.mp ⟨next, h⟩
  rw [takes_add h] at hvalue
  cases combine with
  | latest | every =>
      trivial
  | average =>
      cases kept with
      | none =>
          trivial
      | some average =>
          exact (SavedData.SameShape.congr hdata value).mpr (hvalue rfl)

end Kept

/-!
## Archives
-/

namespace Archive

def AgreeAt (key : String) (a b : Archive R) : Prop :=
  forall combine, (a.slots combine).find? key = (b.slots combine).find? key ∧
    (a.memorySlots combine).find? key = (b.memorySlots combine).find? key

/-- The archive takes every value, in every slot, that the other one takes. -/
def IsLenient (a b : Archive R) : Prop :=
  forall slot data, Kept.Takes (b.read slot) data -> Kept.Takes (a.read slot) data

variable {a a' b b' : Archive R} {key : String} {slot : Slot}

theorem AgreeAt.refl (key : String) (a : Archive R) : AgreeAt key a a :=
  fun _ => ⟨rfl, rfl⟩

theorem AgreeAt.symm (h : AgreeAt key a b) : AgreeAt key b a :=
  fun combine => ⟨(h combine).1.symm, (h combine).2.symm⟩

theorem AgreeAt.trans {c : Archive R} (h : AgreeAt key a b) (h' : AgreeAt key b c) :
    AgreeAt key a c :=
  fun combine => ⟨(h combine).1.trans (h' combine).1, (h combine).2.trans (h' combine).2⟩

theorem AgreeAt.read (h : AgreeAt slot.key a b) : a.read slot = b.read slot := by
  rcases slot with ⟨combine, key, memory⟩
  cases memory with
  | none =>
      exact (h combine).1
  | some memory =>
      simp only [Archive.read, (h combine).2]

theorem agreeAt_write_of_ne (h : slot.key ≠ key) (kept : Kept R slot.combine) :
    AgreeAt key (a.write slot kept) a := by
  rcases slot with ⟨combine, other, memory⟩
  intro combine'
  by_cases hcombine : combine' = combine
  · subst hcombine
    cases memory with
    | none =>
        simp only [write, slots_setSlots_self, memorySlots_setSlots,
          KeyMap.find?_insert_of_ne (Ne.symm h), and_self]
    | some memory =>
        simp only [write, memorySlots_setMemorySlots_self, slots_setMemorySlots,
          KeyMap.find?_insert_of_ne (Ne.symm h), and_self]
  · cases memory with
    | none =>
        simp only [write, slots_setSlots_of_ne hcombine, memorySlots_setSlots, and_self]
    | some memory =>
        simp only [write, memorySlots_setMemorySlots_of_ne hcombine, slots_setMemorySlots,
          and_self]

theorem AgreeAt.write (h : AgreeAt slot.key a b) (kept : Kept R slot.combine) :
    AgreeAt slot.key (a.write slot kept) (b.write slot kept) := by
  rcases slot with ⟨combine, key, memory⟩
  intro combine'
  by_cases hcombine : combine' = combine
  · subst hcombine
    cases memory with
    | none =>
        simp only [Archive.write, slots_setSlots_self, memorySlots_setSlots,
          KeyMap.find?_insert_self, (h combine').2, and_self]
    | some memory =>
        simp only [Archive.write, memorySlots_setMemorySlots_self, slots_setMemorySlots,
          KeyMap.find?_insert_self, h combine', and_self]
  · cases memory with
    | none =>
        simp only [Archive.write, slots_setSlots_of_ne hcombine, memorySlots_setSlots]
        exact h combine'
    | some memory =>
        simp only [Archive.write, memorySlots_setMemorySlots_of_ne hcombine,
          slots_setMemorySlots]
        exact h combine'

theorem IsLenient.refl (a : Archive R) : IsLenient a a :=
  fun _ _ htakes => htakes

/-!
## Saves
-/

variable [Scalar R] {key? : Option String} {save : Archive R -> Outcome (Archive R)}

/-- A save fails whatever the archive holds, or puts a value in a slot under the key. -/
inductive Files (key? : Option String) (save : Archive R -> Outcome (Archive R)) : Prop
  | fails (fault : Fault) (h : forall archive, save archive = .error fault)
  | files (name : String) (slot : Slot) (data : SavedData R) (hkey : key? = some slot.key)
      (h : forall archive, save archive =
        (Kept.add name (archive.read slot) data).map (archive.write slot))

theorem files_save (memory key what : String) (mode : SaveMode) (data : SavedData R) :
    Files (some key) fun archive => archive.save memory key what mode data :=
  .files _ (mode.slot memory key) data rfl fun archive => archive.save_eq memory key what mode data

theorem Files.after {α : Type} {read : Outcome α} {save : α -> Archive R -> Outcome (Archive R)}
    (h : forall value, Files key? (save value)) :
    Files key? fun archive => read >>= fun value => save value archive := by
  cases read with
  | error fault =>
      exact .fails fault fun _ => rfl
  | ok value =>
      exact h value

omit [Scalar R] in
theorem exists_of_map_write {kept : Outcome (Kept R slot.combine)}
    (h : kept.map (b.write slot) = .ok b') :
    exists next, kept = .ok next ∧ b' = b.write slot next := by
  cases kept with
  | error fault =>
      cases h
  | ok next =>
      cases h
      exact ⟨next, rfl, rfl⟩

theorem Files.both (h : Files key? save) (hlenient : a.IsLenient b) (hsave : save b = .ok b') :
    exists a', save a = .ok a' ∧ a'.IsLenient b' ∧
      forall key, AgreeAt key a b -> AgreeAt key a' b' := by
  cases h with
  | fails fault h =>
      rw [h] at hsave
      cases hsave
  | files name slot data hkey h =>
      rw [h] at hsave
      rcases exists_of_map_write hsave with ⟨next, hnext, rfl⟩
      rcases Kept.exists_add_iff.mpr (hlenient slot data (Kept.exists_add_iff.mp ⟨next, hnext⟩))
        with ⟨next', hnext'⟩
      refine ⟨a.write slot next', ?_, ?_, ?_⟩
      · rw [h, hnext']
        rfl
      · intro other value hvalue
        by_cases hother : other = slot
        · subst hother
          rw [read_write_self, Kept.takes_add hnext] at hvalue
          rw [read_write_self, Kept.takes_add hnext']
          exact hvalue
        · rw [read_write_of_ne hother] at hvalue ⊢
          exact hlenient other value hvalue
      · intro key hagree
        by_cases hkey : slot.key = key
        · subst hkey
          rw [hagree.read, hnext] at hnext'
          cases hnext'
          exact hagree.write next
        · exact (agreeAt_write_of_ne hkey next').trans
            (hagree.trans (agreeAt_write_of_ne hkey next).symm)

theorem Files.single (h : Files key? save) (hlenient : a.IsLenient b) (hsave : save b = .ok b') :
    a.IsLenient b' ∧ forall key, key? ≠ some key -> AgreeAt key b b' := by
  cases h with
  | fails fault h =>
      rw [h] at hsave
      cases hsave
  | files name slot data hkey h =>
      rw [h] at hsave
      rcases exists_of_map_write hsave with ⟨next, hnext, rfl⟩
      constructor
      · intro other value hvalue
        by_cases hother : other = slot
        · subst hother
          rw [read_write_self] at hvalue
          exact hlenient other value (Kept.takes_of_takes_add hnext hvalue)
        · rw [read_write_of_ne hother] at hvalue
          exact hlenient other value hvalue
      · intro key hne
        have hother : slot.key ≠ key := by
          rintro rfl
          exact hne hkey
        exact (agreeAt_write_of_ne hother next).symm

end Archive

end MixedState
