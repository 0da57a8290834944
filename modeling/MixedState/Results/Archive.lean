import MixedState.Results.Saved

/-!
# The archive of saved data

Data is saved under a key and, where the save mode asks for it, under the text
of the classical memory as well.
-/

namespace MixedState

/-- What the save modes keep; the `memory` fields by key and memory text. -/
structure Archive (R : Type) where
  latest : KeyMap (SavedData R)
  every : KeyMap (List (SavedData R))
  average : KeyMap (Average R)
  memoryLatest : KeyMap (KeyMap (SavedData R))
  memoryEvery : KeyMap (KeyMap (List (SavedData R)))
  memoryAverage : KeyMap (KeyMap (Average R))

namespace Archive

variable {R : Type} [Scalar R]

def empty : Archive R :=
  ⟨.empty, .empty, .empty, .empty, .empty, .empty⟩

def isEmpty (archive : Archive R) : Bool :=
  archive.latest.isEmpty && archive.every.isEmpty && archive.average.isEmpty
    && archive.memoryLatest.isEmpty && archive.memoryEvery.isEmpty
    && archive.memoryAverage.isEmpty

def append (data : SavedData R) (kept : Option (List (SavedData R))) :
    List (SavedData R) :=
  kept.getD [] ++ [data]

def addAverage (slots : KeyMap (Average R)) (slot : String) (data : SavedData R)
    (what : String) : Outcome (KeyMap (Average R)) :=
  match slots.find? slot with
  | none => .ok (slots.insert slot (Average.ofFirst data))
  | some average =>
      match average.add? data with
      | some average => .ok (slots.insert slot average)
      | none =>
          refuse (.elementCount s!"{what} '{slot}'" average.sum.size data.size)

/-- Saves a value under a key.  `memory` is the text of the classical memory and
`what` names the kind of instruction that saves. -/
def save (archive : Archive R) (memory key what : String) (mode : SaveMode)
    (data : SavedData R) : Outcome (Archive R) :=
  match mode.combine, mode.perMemory with
  | .latest, false => .ok { archive with latest := archive.latest.insert key data }
  | .every, false => .ok { archive with every := archive.every.update key (append data) }
  | .average, false => do
      return { archive with average := ← addAverage archive.average key data what }
  | .latest, true =>
      .ok { archive with
        memoryLatest := archive.memoryLatest.update key fun slots =>
          (slots.getD .empty).insert memory data }
  | .every, true =>
      .ok { archive with
        memoryEvery := archive.memoryEvery.update key fun slots =>
          (slots.getD .empty).update memory (append data) }
  | .average, true => do
      let slots := (archive.memoryAverage.find? key).getD .empty
      let slots ← addAverage slots memory data what
      return { archive with memoryAverage := archive.memoryAverage.insert key slots }

def mapJson {α : Type} (encode : α → Json R) (m : KeyMap α) : Json R :=
  .obj (m.map encode).toList

def field {α : Type} (name : String) (encode : α → Json R) (m : KeyMap α) : Members R :=
  if m.isEmpty then [] else [(name, mapJson encode m)]

def toJson (archive : Archive R) : Json R :=
  .obj (field "single" SavedData.toJson archive.latest
    ++ field "list" (Json.ofList SavedData.toJson) archive.every
    ++ field "average" Average.toJson archive.average
    ++ field "c_single" (mapJson SavedData.toJson) archive.memoryLatest
    ++ field "c_list" (mapJson (Json.ofList SavedData.toJson)) archive.memoryEvery
    ++ field "c_average" (mapJson Average.toJson) archive.memoryAverage)

end Archive

end MixedState
