/-!
# Reading decimals

Of the digits of a decimal the double is made that is nearest to it.
-/

namespace MixedState
namespace Decimal

def digitCount (n : Nat) : Nat :=
  if n < 10 then 1 else digitCount (n / 10) + 1

/-- The double nearest to `± mantissa * 10 ^ exponent`, if it is in range; a
number too small for a double reads as zero. -/
def toFloat? (negative : Bool) (mantissa : Nat) (exponent : Int) : Option Float :=
  let signed (x : Float) : Float := if negative then -x else x
  if mantissa = 0 then
    some (signed 0.0)
  else
    let scale := exponent + Int.ofNat (digitCount mantissa)
    if 400 < scale then
      none
    else if scale < -400 then
      some (signed 0.0)
    else
      let x := Float.ofScientific mantissa (decide (exponent < 0)) exponent.natAbs
      if x.isFinite then some (signed x) else none

def digit? (c : Char) : Option Nat :=
  if '0' ≤ c ∧ c ≤ '9' then some (c.toNat - '0'.toNat) else none

def leadingDigits (value count : Nat) : List Char → Nat × Nat × List Char
  | [] => (value, count, [])
  | c :: rest =>
      match digit? c with
      | some d => leadingDigits (10 * value + d) (count + 1) rest
      | none => (value, count, c :: rest)

end Decimal
end MixedState
