import MixedState.Classical.Register
import MixedState.Density.Sampling
import MixedState.Partition.Route
import MixedState.Settings.Basic

/-!
# The simulated machine

A machine holds the density matrix of a register, or one chunk of it, with its
classical bits and settings.
-/

namespace MixedState

structure Machine (R : Type) where
  store : Store R
  /-- Qubits of the whole register, more than the store's on a chunk. -/
  width : Nat
  classical : Classical
  settings : Settings R

namespace Machine

variable {R : Type} [Scalar R]

def ofStore (store : Store R) : Machine R :=
  { store := store
    width := store.qubits
    classical := .empty
    settings := .standard }

def ofChunk (store : Store R) (width : Nat) : Machine R :=
  { ofStore store with width := max width store.qubits }

def empty : Machine R :=
  ofStore ⟨0, 0, #[1]⟩

def start (m : Machine R) (n : Nat) : Outcome (Machine R) := do
  let store ← m.store.resize n
  return { m with store := ← store.reset, width := n }

def load (m : Machine R) (n : Nat) (store : Store R) : Outcome (Machine R) :=
  if store.qubits = n then .ok { m with store := store, width := n }
  else refuse (.registerWidth n store.qubits)

def startClassical (m : Machine R) (memory register : Nat) : Outcome (Machine R) := do
  return { m with classical := ← Classical.zeros memory register }

def place (m : Machine R) : Place :=
  ⟨m.width, m.store.qubits, m.store.chunk⟩

def isSplit (m : Machine R) : Bool :=
  m.place.isSplit

def requireLocal (m : Machine R) (name : String) (qubits : List Nat) : Outcome Unit :=
  if m.isSplit then
    match qubits.find? fun q => !m.place.isLocal q with
    | some qubit => refuse (.globalQubit name qubit)
    | none => .ok ()
  else
    .ok ()

def requireWhole (m : Machine R) (name : String) : Outcome Unit :=
  if m.isSplit then refuse (.chunkedState name) else .ok ()

def update (m : Machine R) (f : Store R → Outcome (Store R)) : Outcome (Machine R) := do
  return { m with store := ← f m.store }

end Machine

end MixedState
