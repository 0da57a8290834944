import MixedState.Decimal.Fixed

/-!
# Shortest decimals

The shortest decimal that reads back as a given double and, of several, the nearest one.
-/

namespace MixedState
namespace Decimal

/-- Whether `num / den` rounds to the double `d`: it lies within half a unit of
the mantissa, where the ends count when the mantissa is even. -/
def readsBack (d : Dyadic) (num den : Nat) : Bool :=
  let even := d.mantissa % 2 == 0
  let (value, unit) := d.fraction 0
  -- Below a power of two the spacing is half as wide.
  let narrow := d.mantissa == 4503599627370496 && decide (-1074 < d.exponent)
  let upper := 2 * d.mantissa + 1
  let lower := if narrow then 4 * d.mantissa - 1 else 2 * d.mantissa - 1
  let lowerScale := if narrow then 4 else 2
  -- Compares `num / den` with a bound, in units of the mantissa.
  let below := lower * value * den
  let above := upper * value * den
  let atLeast := lowerScale * d.mantissa * num * unit
  let atMost := 2 * d.mantissa * num * unit
  if even then below ≤ atLeast && atMost ≤ above else below < atLeast && atMost < above

/-- The decimal of `digits` places that is nearest to `d` among the two
neighbours on its grid and reads back as `d`: its digits and its exponent. -/
def candidate? (d : Dyadic) (scale : Int) : Option Nat :=
  let (num, den) := d.fraction scale
  let floor := num / den
  let fits (n : Nat) : Bool :=
    readsBack d (n * tenPow (-scale).toNat) (tenPow scale.toNat)
  let low := fits floor
  let high := fits (floor + 1)
  if low && high then
    some (roundHalfEven num den)
  else if low then some floor
  else if high then some (floor + 1)
  else none

def leadingPower (d : Dyadic) : Int :=
  let (num, den) := d.fraction 0
  if den ≤ num then Int.ofNat (digitCount (num / den)) - 1
  else
    let k := digitCount (den / num)
    if den ≤ num * tenPow (k - 1) then -Int.ofNat (k - 1) else -Int.ofNat k

def search (d : Dyadic) (power : Int) (digits tries : Nat) : Nat × Int :=
  let scale := Int.ofNat digits - 1 - power
  match tries with
  | 0 => (d.scaledRound scale, -scale)
  | tries + 1 =>
      match candidate? d scale with
      | some n => (n, -scale)
      | none => search d power (digits + 1) tries

def shortest (d : Dyadic) : Nat × Int :=
  if d.mantissa = 0 then (0, 0) else search d (leadingPower d) 1 17

/-- A finite double as text: positional when the point stands at most 16 digits
from the left end or 5 places before the first digit, else with an exponent. -/
def text (x : Float) : String :=
  match Dyadic.ofFloat? x with
  | none => if x.isNaN then "NaN" else if x < 0 then "-inf" else "inf"
  | some d =>
      let sign := if d.negative then "-" else ""
      let (n, e) := shortest d
      let digits := dropZeros (toString n)
      let e := e + Int.ofNat ((toString n).length - digits.length)
      if n = 0 then sign ++ "0.0"
      else
        let count := digits.length
        let point := Int.ofNat count + e
        if 0 ≤ e ∧ point ≤ 16 then
          sign ++ digits ++ zeros e.toNat ++ ".0"
        else if 0 < point ∧ point ≤ 16 then
          let k := point.toNat
          sign ++ String.ofList (digits.toList.take k) ++ "."
            ++ String.ofList (digits.toList.drop k)
        else if -5 < point ∧ point ≤ 0 then
          sign ++ "0." ++ zeros (-point).toNat ++ digits
        else
          let tail := String.ofList (digits.toList.drop 1)
          let lead := String.ofList (digits.toList.take 1)
          let mantissa := if tail.isEmpty then lead else lead ++ "." ++ tail
          sign ++ mantissa ++ "e" ++ toString (point - 1)

end Decimal
end MixedState
