import MixedState.Machine.Measurement

/-!
# Reduced density matrices

The density matrix of listed qubits adds up entries of the whole one.
-/

namespace MixedState
namespace Machine

variable {R : Type} [Scalar R]

/-- Where the entries of the traced-out qubits begin that add up to one entry. -/
def traceBases (ascending : List Nat) (count : Nat) : List Nat :=
  (List.range count).map fun t => Basis.spread ascending (t * (count + 1))

def partialTrace (m : Machine R) (qubits : List Nat) : Outcome (Mat R) := do
  orCrash (qubits.length ≤ m.width)
  let dim ← checkedShift qubits.length
  let size ← checkedMul dim dim
  let count ← checkedShift (m.width - qubits.length)
  let bits := qubits ++ (← shiftPositions m.width qubits)
  let ascending := Basis.sorted bits
  orCrash (ascending.all fun q => q + 1 < wordBits)
  let bases := traceBases ascending count
  let data := m.store.data
  orCrash (bases.all fun base =>
    (List.range size).all fun i => base ||| Basis.scatter bits i < data.size)
  let entry (i : Nat) : Amplitude R :=
    let offset := Basis.scatter bits i
    bases.foldl (fun sum base => sum + data.entry (base ||| offset)) 0
  return Mat.ofFn dim dim fun r c => entry (r + c * dim)

/-- The density matrix of the listed qubits.  The whole register in ascending order
gives its own matrix, which `final` takes out of the store. -/
def reduced (m : Machine R) (qubits : List Nat) (final : Bool) :
    Outcome (Mat R) × Machine R :=
  match m.requireWhole "save_densmat" with
  | .error fault => (.error fault, m)
  | .ok () =>
      if qubits.isEmpty then
        (m.store.trace.map fun t => Mat.ofFn 1 1 fun _ _ => Amplitude.ofReal t, m)
      else if !m.isWholeRegister qubits then
        (m.partialTrace qubits, m)
      else if final then
        let (matrix, store) := m.store.take
        (matrix, { m with store := store })
      else
        (m.store.copy, m)

end Machine
end MixedState
