import MixedState.Decimal.Fixed
import MixedState.Instruction.Basic
import MixedState.Json.Basic

/-!
# Noise models

Single-qubit noise channels and readout errors, each with one parameter.
-/

namespace MixedState

inductive NoiseKind where
  | depolarizing
  | amplitudeDamping
  | phaseDamping
  | bitFlip
  | phaseFlip
  | readoutError
  deriving DecidableEq, Repr

namespace NoiseKind

def all : List NoiseKind :=
  [depolarizing, amplitudeDamping, phaseDamping, bitFlip, phaseFlip, readoutError]

def name : NoiseKind → String
  | depolarizing => "depolarizing"
  | amplitudeDamping => "amplitude_damping"
  | phaseDamping => "phase_damping"
  | bitFlip => "bit_flip"
  | phaseFlip => "phase_flip"
  | readoutError => "readout_error"

def ofName? (text : String) : Option NoiseKind :=
  all.find? fun kind => kind.name == text

def field : NoiseKind → String
  | amplitudeDamping | phaseDamping => "gamma"
  | _ => "p"

def sign : NoiseKind → String
  | amplitudeDamping | phaseDamping => "γ"
  | _ => "p"

end NoiseKind

structure NoiseModel (R : Type) where
  kind : NoiseKind
  strength : R

namespace NoiseModel

variable {R : Type} [Scalar R]

def name (model : NoiseModel R) : String :=
  model.kind.name

def describe (model : NoiseModel Float) : String :=
  model.name ++ "(" ++ model.kind.sign ++ "=" ++ Decimal.fixed 4 model.strength ++ ")"

def krausOperators? (model : NoiseModel R) : Option (List (Mat R)) :=
  let s := model.strength
  let keep := Amplitude.ofReal (Scalar.sqrt (1 - s))
  let move := Scalar.sqrt s
  match model.kind with
  | .depolarizing =>
      let a := Amplitude.ofReal (Scalar.sqrt (1 - Scalar.ofNat 3 / Scalar.ofNat 4 * s))
      let b := Scalar.sqrt (s / Scalar.ofNat 4)
      some [Mat.two a 0 0 a,
        Mat.two 0 ⟨b, 0⟩ ⟨b, 0⟩ 0,
        Mat.two 0 ⟨0, -b⟩ ⟨0, b⟩ 0,
        Mat.two ⟨b, 0⟩ 0 0 ⟨-b, 0⟩]
  | .amplitudeDamping =>
      some [Mat.two 1 0 0 keep, Mat.two 0 (Amplitude.ofReal move) 0 0]
  | .phaseDamping =>
      some [Mat.two 1 0 0 keep, Mat.two 0 0 0 (Amplitude.ofReal move)]
  | .bitFlip =>
      some [Mat.two keep 0 0 keep,
        Mat.two 0 (Amplitude.ofReal move) (Amplitude.ofReal move) 0]
  | .phaseFlip =>
      some [Mat.two keep 0 0 keep,
        Mat.two (Amplitude.ofReal move) 0 0 (Amplitude.ofReal (-move))]
  | .readoutError => none

/-- The rows of a readout error: the distributions of the reported value when
the true value is 0 and when it is 1. -/
def readout? (model : NoiseModel R) : Option (List (List R)) :=
  match model.kind with
  | .readoutError =>
      let p := model.strength
      some [[1 - p, p], [p, 1 - p]]
  | _ => none

def toKraus (model : NoiseModel R) (qubit : Nat) : Outcome (Instruction R) :=
  match model.krausOperators? with
  | some operators => Instruction.kraus [qubit] operators
  | none => refuse (.notAChannel model.name)

def toInstruction (model : NoiseModel R) (qubit slot : Nat) : Outcome (Instruction R) :=
  match model.readout? with
  | some table => .ok (Instruction.readoutError [slot] table)
  | none => model.toKraus qubit

def ofMembers? (kind? : Json R → Option NoiseKind) (members : Members R) :
    Option (NoiseModel R) := do
  let kind ← members.required "model" kind?
  let strength ← members.required kind.field Json.scalar?
  return ⟨kind, strength⟩

def ofJson? (v : Json R) : Option (NoiseModel R) := do
  let kind? (v : Json R) := v.text?.bind NoiseKind.ofName?
  let _ ← v.height?
  match v with
  | .obj members => ofMembers? kind? members
  | .arr [kind, strength] => return ⟨← kind? kind, ← strength.scalar?⟩
  | _ => none

end NoiseModel

structure NoiseSource (R : Type) where
  qubit : Nat
  model : NoiseModel R

namespace NoiseSource

variable {R : Type} [Scalar R]

def kind? : Json R → Option NoiseKind
  | .str text => NoiseKind.ofName? text
  | .int (.ofNat n) => NoiseKind.all[n]?
  | _ => none

def maxHeight : Nat :=
  125

def ofJson? (v : Json R) : Option (NoiseSource R) := do
  guard ((← v.height?) ≤ maxHeight)
  match v with
  | .obj members =>
      let qubit ← Members.required members "qubit" Json.natural?
      let model ← NoiseModel.ofMembers? kind? members
      return ⟨qubit, model⟩
  | _ => none

end NoiseSource

end MixedState
