/-!
# Maps with sorted keys

Values under text keys, listed in ascending order of the keys.
-/

namespace MixedState

structure KeyMap (α : Type) where
  entries : List (String × α)

namespace KeyMap

variable {α : Type}

def empty : KeyMap α :=
  ⟨[]⟩

instance : Inhabited (KeyMap α) := ⟨empty⟩

def isEmpty (m : KeyMap α) : Bool :=
  m.entries.isEmpty

def size (m : KeyMap α) : Nat :=
  m.entries.length

def findIn (key : String) : List (String × α) → Option α
  | [] => none
  | (k, v) :: rest => if k = key then some v else findIn key rest

def find? (m : KeyMap α) (key : String) : Option α :=
  findIn key m.entries

/-- Replaces the value of a key, or puts a new entry before the first greater
key. -/
def insertIn (key : String) (value : α) : List (String × α) → List (String × α)
  | [] => [(key, value)]
  | (k, v) :: rest =>
      if k = key then (key, value) :: rest
      else if key < k then (key, value) :: (k, v) :: rest
      else (k, v) :: insertIn key value rest

def insert (m : KeyMap α) (key : String) (value : α) : KeyMap α :=
  ⟨insertIn key value m.entries⟩

def update (m : KeyMap α) (key : String) (f : Option α → α) : KeyMap α :=
  m.insert key (f (m.find? key))

def map {β : Type} (f : α → β) (m : KeyMap α) : KeyMap β :=
  ⟨m.entries.map fun (k, v) => (k, f v)⟩

def toList (m : KeyMap α) : List (String × α) :=
  m.entries

def ofList (entries : List (String × α)) : KeyMap α :=
  entries.foldl (fun m (k, v) => m.insert k v) empty

@[simp] theorem find?_empty (key : String) : (empty : KeyMap α).find? key = none :=
  rfl

theorem findIn_insertIn_self (key : String) (value : α) (entries : List (String × α)) :
    findIn key (insertIn key value entries) = some value := by
  induction entries with
  | nil =>
      simp [insertIn, findIn]
  | cons entry rest ih =>
      obtain ⟨k, v⟩ := entry
      by_cases hk : k = key
      · simp [insertIn, findIn, hk]
      · by_cases hlt : key < k
        · simp [insertIn, findIn, hk, hlt]
        · simp [insertIn, findIn, hk, hlt, ih]

theorem findIn_insertIn_of_ne {key other : String} (h : other ≠ key) (value : α)
    (entries : List (String × α)) :
    findIn other (insertIn key value entries) = findIn other entries := by
  induction entries with
  | nil =>
      simp [insertIn, findIn, h.symm]
  | cons entry rest ih =>
      obtain ⟨k, v⟩ := entry
      by_cases hk : k = key
      · subst hk
        simp [insertIn, findIn, h.symm]
      · by_cases hlt : key < k
        · simp [insertIn, findIn, hk, hlt, h.symm]
        · simp [insertIn, findIn, hk, hlt, ih]

theorem insertIn_insertIn (key : String) (value other : α) (entries : List (String × α)) :
    insertIn key other (insertIn key value entries) = insertIn key other entries := by
  induction entries with
  | nil =>
      simp [insertIn]
  | cons entry rest ih =>
      obtain ⟨k, v⟩ := entry
      by_cases hk : k = key
      · simp [insertIn, hk]
      · by_cases hlt : key < k
        · simp [insertIn, hk, hlt]
        · simp [insertIn, hk, hlt, ih]

@[simp] theorem insert_insert (m : KeyMap α) (key : String) (value other : α) :
    (m.insert key value).insert key other = m.insert key other :=
  congrArg KeyMap.mk (insertIn_insertIn key value other m.entries)

@[simp] theorem find?_insert_self (m : KeyMap α) (key : String) (value : α) :
    (m.insert key value).find? key = some value :=
  findIn_insertIn_self key value m.entries

theorem find?_insert_of_ne {key other : String} (h : other ≠ key) (m : KeyMap α)
    (value : α) : (m.insert key value).find? other = m.find? other :=
  findIn_insertIn_of_ne h value m.entries

theorem find?_map {β : Type} (f : α → β) (m : KeyMap α) (key : String) :
    (m.map f).find? key = (m.find? key).map f := by
  unfold find? map
  induction m.entries with
  | nil =>
      rfl
  | cons entry rest ih =>
      obtain ⟨k, v⟩ := entry
      by_cases hk : k = key
      · simp [findIn, hk]
      · simp [findIn, hk, ih]

end KeyMap

end MixedState
