import MixedState.Decimal.Dyadic
import MixedState.Decimal.Reading

/-!
# Decimals of a fixed precision

Doubles with a fixed number of places, and doubles to ten digits: at most ten places below a
thousand, and significant digits with an exponent from there on.
-/

namespace MixedState
namespace Decimal

def zeros (n : Nat) : String :=
  String.ofList (List.replicate n '0')

def padded (width n : Nat) : String :=
  let digits := toString n
  zeros (width - digits.length) ++ digits

def dropZeros (digits : String) : String :=
  String.ofList ((digits.toList.reverse.dropWhile fun c => c = '0').reverse)

def withPlaces (negative : Bool) (places n : Nat) : String :=
  let sign := if negative then "-" else ""
  let whole := toString (n / tenPow places)
  if places = 0 then sign ++ whole
  else sign ++ whole ++ "." ++ padded places (n % tenPow places)

/-- The exact value of a double rounded to `places`, ties to even.  A negative
number keeps its sign, also when it rounds to zero. -/
def fixed (places : Nat) (x : Float) : String :=
  match Dyadic.ofFloat? x with
  | some d => withPlaces d.negative places (d.scaledRound (Int.ofNat places))
  | none => if x.isNaN then "NaN" else if x < 0 then "-inf" else "inf"

def roundedSmall (d : Dyadic) : String :=
  let n := d.scaledRound 10
  let whole := toString (n / 10000000000)
  let places := dropZeros (padded 10 (n % 10000000000))
  let sign := if d.negative && n != 0 then "-" else ""
  if places.isEmpty then sign ++ whole else sign ++ whole ++ "." ++ places

def roundedLarge (d : Dyadic) : String :=
  let whole := (d.fraction 0).1 / (d.fraction 0).2
  let exponent := digitCount whole - 1
  let n := d.scaledRound (9 - Int.ofNat exponent)
  let exponent := if digitCount n = 10 then exponent else exponent + 1
  let digits := (toString n).toList
  let places := dropZeros (String.ofList (digits.drop 1))
  let sign := if d.negative then "-" else ""
  let lead := sign ++ String.ofList (digits.take 1)
  let mantissa := if places.isEmpty then lead else lead ++ "." ++ places
  mantissa ++ "e" ++ toString exponent

/-- A finite double to ten digits: places below a thousand, significant digits
with an exponent from there on. -/
def rounded (x : Float) : Option String :=
  (Dyadic.ofFloat? x).map fun d =>
    if (d.fraction 0).1 < 1000 * (d.fraction 0).2 then roundedSmall d else roundedLarge d

end Decimal
end MixedState
