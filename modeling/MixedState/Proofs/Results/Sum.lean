import MixedState.Results.Saved

/-!
# Sums of saved data

Values of one kind and shape are added place by place, in the order in which they come.
A label that a ket does not have leaves the sum under it as it is.
-/

namespace MixedState

namespace KeyMap

variable {α : Type}

def listed (m : KeyMap α) (key : String) : List α :=
  m.toList.filterMap fun entry => if entry.1 = key then some entry.2 else none

theorem find?_eq_head?_listed (m : KeyMap α) (key : String) :
    m.find? key = (m.listed key).head? := by
  unfold find? listed toList
  induction m.entries with
  | nil =>
      rfl
  | cons entry rest ih =>
      rcases entry with ⟨k, v⟩
      by_cases hk : k = key
      · simp [findIn, hk]
      · simp [findIn, hk, ih]

theorem isSome_find?_update {m : KeyMap α} {key other : String} {f : Option α -> α} :
    ((m.update key f).find? other).isSome ↔ (m.find? other).isSome ∨ key = other := by
  unfold update
  by_cases h : other = key
  · subst h
    simp [find?_insert_self]
  · rw [find?_insert_of_ne h]
    simp [Ne.symm h]

end KeyMap

namespace SavedData

variable {R : Type} [Scalar R]

/-!
## Kets
-/

theorem isSome_find?_addKet (a b : KeyMap R) (label : String) :
    ((addKet a b).find? label).isSome ↔
      (a.find? label).isSome ∨ (b.find? label).isSome := by
  rw [b.find?_eq_head?_listed]
  unfold addKet KeyMap.listed
  induction b.toList generalizing a with
  | nil =>
      simp
  | cons entry rest ih =>
      rcases entry with ⟨k, p⟩
      rw [List.foldl_cons, ih, KeyMap.isSome_find?_update]
      by_cases hk : k = label
      · simp [hk]
      · simp [hk]

theorem getD_find?_addKet (a b : KeyMap R) (label : String) :
    ((addKet a b).find? label).getD 0 =
      (b.listed label).foldl (· + ·) ((a.find? label).getD 0) := by
  unfold addKet KeyMap.listed
  induction b.toList generalizing a with
  | nil =>
      rfl
  | cons entry rest ih =>
      rcases entry with ⟨k, p⟩
      rw [List.foldl_cons, ih]
      unfold KeyMap.update
      by_cases hk : k = label
      · subst hk
        simp [KeyMap.find?_insert_self]
      · rw [KeyMap.find?_insert_of_ne (Ne.symm hk)]
        simp [hk]

/-- The labels of a sum are those of its summands.  The sum under a label starts from
the first value there, or from zero. -/
structure KetSum (a : KeyMap R) (rest : List (KeyMap R)) (sum : KeyMap R) : Prop where
  labels : forall label, (sum.find? label).isSome ↔
    exists b, b ∈ a :: rest ∧ (b.find? label).isSome
  values : forall label, (sum.find? label).getD 0 =
    (rest.flatMap fun b => b.listed label).foldl (· + ·) ((a.find? label).getD 0)

theorem KetSum.add {a sum : KeyMap R} {rest : List (KeyMap R)} (h : KetSum a rest sum)
    (b : KeyMap R) : KetSum a (rest ++ [b]) (addKet sum b) where
  labels := by
    intro label
    rw [isSome_find?_addKet, h.labels]
    simp only [← List.cons_append, List.mem_append, List.mem_singleton, or_and_right,
      exists_or, exists_eq_left]
  values := by
    intro label
    rw [getD_find?_addKet, h.values, List.flatMap_append, List.foldl_append,
      List.flatMap_singleton]

/-!
## Vectors and matrices
-/

structure VectorSum (a : List R) (rest : List (List R)) (sum : List R) : Prop where
  shape : forall b, b ∈ rest -> a.length = b.length
  length : sum.length = a.length
  entries : forall i : Nat, sum[i]? =
    (a[i]?).map fun x => (rest.filterMap fun b => b[i]?).foldl (· + ·) x

theorem VectorSum.add {a b sum : List R} {rest : List (List R)} (h : VectorSum a rest sum)
    (hb : a.length = b.length) :
    VectorSum a (rest ++ [b]) (List.zipWith (· + ·) sum b) where
  shape := by
    intro other hother
    rcases List.mem_append.mp hother with hrest | hlast
    · exact h.shape other hrest
    · rw [List.mem_singleton.mp hlast]
      exact hb
  length := by
    rw [List.length_zipWith, h.length, ← hb, Nat.min_self]
  entries := by
    intro i
    rw [List.getElem?_zipWith, h.entries, List.filterMap_append]
    by_cases hi : i < a.length
    · have hib : i < b.length := hb ▸ hi
      simp [hi, hib]
    · have hib : ¬i < b.length := hb ▸ hi
      simp [hi]

structure MatrixSum (a : Mat R) (rest : List (Mat R)) (sum : Mat R) : Prop where
  shape : forall b, b ∈ rest -> a.rows = b.rows ∧ a.cols = b.cols
  rows : sum.rows = a.rows
  cols : sum.cols = a.cols
  entries : forall r c, r < a.rows -> c < a.cols ->
    sum.entry r c = (rest.map fun b => b.entry r c).foldl (· + ·) (a.entry r c)

theorem MatrixSum.add {a b sum : Mat R} {rest : List (Mat R)} (h : MatrixSum a rest sum)
    (hb : a.rows = b.rows ∧ a.cols = b.cols) :
    MatrixSum a (rest ++ [b])
      (Mat.ofFn sum.rows sum.cols fun r c => sum.entry r c + b.entry r c) where
  shape := by
    intro other hother
    rcases List.mem_append.mp hother with hrest | hlast
    · exact h.shape other hrest
    · rw [List.mem_singleton.mp hlast]
      exact hb
  rows := h.rows
  cols := h.cols
  entries := by
    intro r c hr hc
    rw [Mat.entry_ofFn _ (h.rows ▸ hr) (h.cols ▸ hc), h.entries r c hr hc, List.map_append,
      List.foldl_append]
    rfl

/-!
## All kinds
-/

def SameShape : SavedData R -> SavedData R -> Prop
  | scalar _, scalar _ => True
  | vector a, vector b => a.length = b.length
  | ket _, ket _ => True
  | matrix a, matrix b => a.rows = b.rows ∧ a.cols = b.cols
  | _, _ => False

/-- The values after the first one have its kind and shape, and each place of the sum
holds what they have at that place, added to the first from the left. -/
inductive SumOf : SavedData R -> List (SavedData R) -> SavedData R -> Prop where
  | scalar (a : R) (rest : List R) :
      SumOf (.scalar a) (rest.map .scalar) (.scalar (rest.foldl (· + ·) a))
  | vector {a : List R} {rest : List (List R)} {sum : List R} (h : VectorSum a rest sum) :
      SumOf (.vector a) (rest.map .vector) (.vector sum)
  | ket {a : KeyMap R} {rest : List (KeyMap R)} {sum : KeyMap R} (h : KetSum a rest sum) :
      SumOf (.ket a) (rest.map .ket) (.ket sum)
  | matrix {a : Mat R} {rest : List (Mat R)} {sum : Mat R} (h : MatrixSum a rest sum) :
      SumOf (.matrix a) (rest.map .matrix) (.matrix sum)

theorem sumOf_self (data : SavedData R) : SumOf data [] data := by
  cases data with
  | scalar a =>
      exact .scalar a []
  | vector a =>
      have hsum : VectorSum a [] a := ⟨by simp, rfl, by simp⟩
      exact .vector hsum
  | ket a =>
      have hsum : KetSum a [] a := ⟨by simp, by simp⟩
      exact .ket hsum
  | matrix a =>
      have hsum : MatrixSum a [] a := ⟨by simp, rfl, rfl, by simp⟩
      exact .matrix hsum

theorem add?_eq_none_iff {a b : SavedData R} : a.add? b = none ↔ ¬a.SameShape b := by
  cases a <;> cases b <;> simp [add?, SameShape, Mat.hasShape]

theorem SumOf.sameShape_iff {first sum : SavedData R} {rest : List (SavedData R)}
    (h : SumOf first rest sum) (data : SavedData R) :
    sum.SameShape data ↔ first.SameShape data := by
  cases h with
  | scalar a rest =>
      cases data <;> rfl
  | vector h =>
      cases data <;> simp [SameShape, h.length]
  | ket h =>
      cases data <;> rfl
  | matrix h =>
      cases data <;> simp [SameShape, h.rows, h.cols]

theorem SumOf.add {first sum data : SavedData R} {rest : List (SavedData R)}
    (h : SumOf first rest sum) (hshape : first.SameShape data) :
    exists total, sum.add? data = some total ∧ SumOf first (rest ++ [data]) total := by
  cases h with
  | scalar a rest =>
      cases data with
      | scalar b =>
          have hsum := SumOf.scalar a (rest ++ [b])
          rw [List.map_append, List.foldl_append] at hsum
          exact ⟨_, rfl, hsum⟩
      | vector b | ket b | matrix b =>
          exact hshape.elim
  | @vector a rest sum h =>
      cases data with
      | vector b =>
          have hsum := SumOf.vector (h.add hshape)
          rw [List.map_append] at hsum
          exact ⟨_, if_pos (h.length.trans hshape), hsum⟩
      | scalar b | ket b | matrix b =>
          exact hshape.elim
  | @ket a rest sum h =>
      cases data with
      | ket b =>
          have hsum := SumOf.ket (h.add b)
          rw [List.map_append] at hsum
          exact ⟨_, rfl, hsum⟩
      | scalar b | vector b | matrix b =>
          exact hshape.elim
  | @matrix a rest sum h =>
      cases data with
      | matrix b =>
          have hsum := SumOf.matrix (h.add hshape)
          have hsame : sum.hasShape b.rows b.cols = true := by
            simp [Mat.hasShape, h.rows, h.cols, hshape.1, hshape.2]
          rw [List.map_append] at hsum
          exact ⟨_, if_pos hsame, hsum⟩
      | scalar b | vector b | ket b =>
          exact hshape.elim

end SavedData

end MixedState
