import MixedState.Fault

/-!
# The memory of a register

An estimate of the memory that the entries of a register take, and the line that tells it.
-/

namespace MixedState

/-- `16 * 4 ^ qubits` bytes in units of `2 ^ 20` bytes, but at least one unit. -/
def requiredMegabytes (qubits : Nat) : Outcome Nat := do
  orCrash (2 * qubits + 4 < wordSize)
  checkedShift (2 * qubits + 4 - 20)

/-- The number of entries, spelled out below `2 ^ 128`. -/
def amplitudeCount (qubits : Nat) : String :=
  if 2 * qubits < 128 then toString (twoPow (2 * qubits)) else s!"4^{qubits}"

def memoryLine (qubits : Nat) : Outcome String := do
  let megabytes ← requiredMegabytes qubits
  return s!"→ {qubits} qubits: {megabytes} MB ({amplitudeCount qubits} complex amplitudes)\n"

end MixedState
