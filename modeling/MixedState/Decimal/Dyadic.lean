import MixedState.Power

/-!
# Doubles as exact fractions

A finite double is `± mantissa * 2 ^ exponent`.  Such numbers are scaled by powers of ten and
rounded to the nearest integer, ties to even.
-/

namespace MixedState
namespace Decimal

/-- The number `± mantissa * 2 ^ exponent`; the sign is kept for zero too. -/
structure Dyadic where
  negative : Bool
  mantissa : Nat
  exponent : Int

def Dyadic.ofFloat? (x : Float) : Option Dyadic :=
  let bits := x.toBits.toNat
  let negative := decide (9223372036854775808 ≤ bits)
  let field := bits / 4503599627370496 % 2048
  let fraction := bits % 4503599627370496
  if field = 2047 then none
  else if field = 0 then some ⟨negative, fraction, -1074⟩
  else some ⟨negative, fraction + 4503599627370496, Int.ofNat field - 1075⟩

def roundHalfEven (num den : Nat) : Nat :=
  let quotient := num / den
  let twice := 2 * (num % den)
  if twice < den then quotient
  else if den < twice then quotient + 1
  else if quotient % 2 = 0 then quotient
  else quotient + 1

def Dyadic.fraction (x : Dyadic) (scale : Int) : Nat × Nat :=
  let num := x.mantissa * twoPow x.exponent.toNat * tenPow scale.toNat
  let den := twoPow (-x.exponent).toNat * tenPow (-scale).toNat
  (num, den)

def Dyadic.scaledRound (x : Dyadic) (scale : Int) : Nat :=
  roundHalfEven (x.fraction scale).1 (x.fraction scale).2

end Decimal
end MixedState
