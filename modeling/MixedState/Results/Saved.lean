import MixedState.Instruction.Format
import MixedState.Results.KeyMap

/-!
# Saved data

A saved value is a number, a vector, a ket or a matrix.  Averages add up values of one kind and
shape, and divide the sum by their count.
-/

namespace MixedState

inductive SavedData (R : Type) where
  | scalar (value : R)
  | vector (values : List R)
  /-- Probabilities under the labels of basis states. -/
  | ket (values : KeyMap R)
  | matrix (value : Mat R)

namespace SavedData

variable {R : Type} [Scalar R]

def size : SavedData R → Nat
  | scalar _ => 1
  | vector values => values.length
  | ket values => values.size
  | matrix value => value.size

def isEmpty (data : SavedData R) : Bool :=
  data.size == 0

/-- The sum over the labels of both; a label that is absent counts as zero. -/
def addKet (a b : KeyMap R) : KeyMap R :=
  b.toList.foldl (fun sum (label, p) => sum.update label fun old => old.getD 0 + p) a

def add? : SavedData R → SavedData R → Option (SavedData R)
  | scalar a, scalar b => some (scalar (a + b))
  | vector a, vector b =>
      if a.length = b.length then some (vector (List.zipWith (· + ·) a b)) else none
  | ket a, ket b => some (ket (addKet a b))
  | matrix a, matrix b =>
      if a.hasShape b.rows b.cols then
        some (matrix (Mat.ofFn a.rows a.cols fun r c => a.entry r c + b.entry r c))
      else
        none
  | _, _ => none

def scale (factor : R) : SavedData R → SavedData R
  | scalar a => scalar (a * factor)
  | vector values => vector (values.map fun a => a * factor)
  | ket values => ket (values.map fun a => a * factor)
  | matrix value => matrix (value.map fun a => a * Amplitude.ofReal factor)

/-- The second value has the numbers of the first, each multiplied where it stands. -/
inductive ScaledBy (factor : R) : SavedData R → SavedData R → Prop where
  | scalar {a b : R} (value : b = a * factor) : ScaledBy factor (.scalar a) (.scalar b)
  | vector {a b : List R} (entries : ∀ i : Nat, b[i]? = a[i]?.map fun x => x * factor) :
      ScaledBy factor (.vector a) (.vector b)
  | ket {a b : KeyMap R}
      (values : ∀ label, b.find? label = (a.find? label).map fun x => x * factor) :
      ScaledBy factor (.ket a) (.ket b)
  | matrix {a b : Mat R} (rows : b.rows = a.rows) (cols : b.cols = a.cols)
      (entries : ∀ r c, r < a.rows → c < a.cols →
        b.entry r c = a.entry r c * Amplitude.ofReal factor) :
      ScaledBy factor (.matrix a) (.matrix b)

theorem scaledBy_scale (factor : R) (data : SavedData R) :
    ScaledBy factor data (data.scale factor) := by
  cases data with
  | scalar a =>
      exact .scalar rfl
  | vector values =>
      exact .vector fun _ => List.getElem?_map
  | ket values =>
      exact .ket (values.find?_map _)
  | matrix value =>
      exact .matrix rfl rfl fun _ _ hr hc => Mat.entry_map _ hr hc

def toJson : SavedData R → Json R
  | scalar a => Json.ofScalar a
  | vector values => Json.ofList Json.ofScalar values
  | ket values => .obj (values.map Json.ofScalar).toList
  | matrix value => value.toJson

end SavedData

structure Average (R : Type) where
  sum : SavedData R
  count : Nat

namespace Average

variable {R : Type} [Scalar R]

def ofFirst (data : SavedData R) : Average R :=
  ⟨data, 1⟩

def add? (average : Average R) (data : SavedData R) : Option (Average R) :=
  (average.sum.add? data).map fun sum => ⟨sum, average.count + 1⟩

def mean (average : Average R) : SavedData R :=
  average.sum.scale (1 / Scalar.ofNat average.count)

def toJson (average : Average R) : Json R :=
  average.mean.toJson

end Average

end MixedState
