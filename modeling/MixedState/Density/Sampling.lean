import MixedState.Density.Store
import MixedState.Random.Source

/-!
# Sampling basis states

A variate is searched for among the running sums of the diagonal.  The search halves a range,
and takes it for granted that the sums ascend.
-/

namespace MixedState

def narrow (p : Nat → Bool) (size base : Nat) : Nat :=
  if 1 < size then
    let middle := base + size / 2
    narrow p (size - size / 2) (if p middle then middle else base)
  else
    base
termination_by size
decreasing_by omega

/-- The number of leading places that satisfy `p`, found by halving.  Where the
places that satisfy `p` are no leading part, it is what the search meets. -/
def partitionPoint (p : Nat → Bool) (size : Nat) : Nat :=
  if size = 0 then 0
  else
    let base := narrow p size 0
    if p base then base + 1 else base

variable {R : Type} [Scalar R]

def lastPositive (xs : List R) : Nat :=
  match (xs.zipIdx.filter fun (x, _) => Scalar.lt 0 x).getLast? with
  | some (_, i) => i
  | none => xs.length - 1

/-- The place that a variate selects by running sums: the first whose sum exceeds
it, but none past `last`. -/
def selectPlace (last : Nat) (sums : Array R) (variate : R) : Nat :=
  min (partitionPoint (fun i => Scalar.le (sums.getD i 0) variate) sums.size) last

def Store.sample (s : Store R) (variates : List R) : Outcome (List Nat) := do
  let weights ← s.probabilities
  let sums := (partialSums 0 weights).toArray
  let last := lastPositive weights
  return variates.map (selectPlace last sums)

end MixedState
