import MixedState.Amplitude
import MixedState.Fault
import MixedState.Random.ChaCha

/-!
# The random source

Variates are counted in steps of `2 ^ -53`.  An index is drawn with a probability in proportion
to its weight.
-/

namespace MixedState

/-- A stream of double words; `drawn` of them are used up. -/
structure Source where
  key : ChaCha.Key
  drawn : Nat
  deriving DecidableEq

namespace Source

def ofSeed (seed : Nat) : Source :=
  ⟨ChaCha.Key.ofSeed (UInt64.ofNat seed), 0⟩

def peek (source : Source) : UInt64 :=
  (ChaCha.block source.key (UInt64.ofNat (source.drawn / 8))).pair (source.drawn % 8)

def advance (source : Source) : Source :=
  { source with drawn := source.drawn + 1 }

def variateSteps : Nat :=
  9007199254740992

def variate (source : Source) : Nat × Source :=
  ((source.peek >>> 11).toNat, source.advance)

def variates (count : Nat) (source : Source) : List Nat × Source :=
  go [] count source
where
  go (reversed : List Nat) (count : Nat) (source : Source) : List Nat × Source :=
    match count with
    | 0 => (reversed.reverse, source)
    | count + 1 =>
        let (v, source) := source.variate
        go (v :: reversed) count source

end Source

section Weights

variable {R : Type} [Scalar R]

def unitFraction (n : Nat) : R :=
  Scalar.ofNat n / Scalar.ofNat Source.variateSteps

def partialSums (sum : R) : List R → List R
  | [] => []
  | x :: rest => (sum + x) :: partialSums (sum + x) rest

def runningSums : List R → List R
  | [] => []
  | x :: rest => x :: partialSums x rest

def drawSteps : Nat :=
  4503599627370496

def topDraw : R :=
  1 - 1 / Scalar.ofNat drawSteps

/-- A factor for which no scaled draw reaches `total`: the first of `total` and
the scalars below it.  The fuel exceeds the number of steps that doubles need. -/
def drawScale (fuel : Nat) (total scale : R) : R :=
  match fuel with
  | 0 => scale
  | fuel + 1 =>
      if Scalar.le total (scale * topDraw) then drawScale fuel total (Scalar.below scale)
      else scale

/-- The number of running sums before the last that a draw reaches. -/
def choiceAt (sums : List R) (draw : R) : Nat :=
  (sums.dropLast.filter fun sum => Scalar.le sum draw).length

/-- Draws an index with probability in proportion to its weight; weights that
are not positive count as zero.  Nothing is drawn on a refusal. -/
def Source.choose (source : Source) (weights : List R) : Outcome (Nat × Source) :=
  let sums := runningSums (weights.map Scalar.clamp)
  match sums.getLast? with
  | none => refuse (.noDraw .empty)
  | some total =>
      if !Scalar.lt 0 total then refuse (.noDraw .allZero)
      else if !Scalar.isFinite total then crash
      else
        let steps : R := Scalar.ofNat (source.peek >>> 12).toNat
        let draw := steps / Scalar.ofNat drawSteps * drawScale 64 total total
        .ok (choiceAt sums draw, source.advance)

end Weights

end MixedState
