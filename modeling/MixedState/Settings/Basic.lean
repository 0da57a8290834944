import MixedState.Power
import MixedState.Scalar

/-!
# Settings

What a configuration file sets, and when a loop is shared among workers.
-/

namespace MixedState

structure Settings (R : Type) where
  /-- Probabilities below this are left out of ket-formatted results. -/
  chopThreshold : R
  /-- Loops over more than `2 ^ parallelThreshold` elements may be shared. -/
  parallelThreshold : Nat
  threads : Nat

def Settings.standard {R : Type} [Scalar R] : Settings R :=
  { chopThreshold := 1 / Scalar.ofNat 10000000000
    parallelThreshold := 14
    threads := 1 }

/-- A sharing policy: the size from which loops are shared, if they are.  `Store.expectation`
is the serial sum.  Workers that share it group the terms differently, which comes to the same
in exact arithmetic only. -/
structure Workers where
  threshold : Nat
  pooled : Bool
  deriving DecidableEq

namespace Workers

def serial : Workers :=
  ⟨18446744073709551615, false⟩

def ofSettings {R : Type} (settings : Settings R) : Workers :=
  ⟨settings.parallelThreshold, 1 < settings.threads⟩

def enabledFor (workers : Workers) (n : Nat) : Bool :=
  workers.pooled && workers.threshold < 64 && twoPow workers.threshold < n

end Workers

end MixedState
