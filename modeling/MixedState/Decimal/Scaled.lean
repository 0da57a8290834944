import MixedState.Decimal.Reading

/-!
# Words scaled by powers of ten

A decimal is kept as the leading digits that fit one word, and a power of ten.
-/

namespace MixedState
namespace Decimal

structure Scaled where
  word : Nat
  exponent : Int

/-- Reads leading digits after those of `word`, as long as the number fits one word:
that number, how many digits were read, and the rest. -/
def wordDigits (word count : Nat) : List Char → Nat × Nat × List Char
  | [] => (word, count, [])
  | c :: rest =>
      match (digit? c).filter fun d => 10 * word + d < 18446744073709551616 with
      | some d => wordDigits (10 * word + d) (count + 1) rest
      | none => (word, count, c :: rest)

def passDigits (cs : List Char) : Nat × List Char :=
  let isDigit (c : Char) : Bool := (digit? c).isSome
  ((cs.takeWhile isDigit).length, cs.dropWhile isDigit)

def tenPowFloat (n : Nat) : Float :=
  Float.ofScientific 1 false n

namespace Scaled

def toFloat? (s : Scaled) : Option Float :=
  let x := Float.ofScientific s.word false 0
  if s.word = 0 then
    some 0.0
  else if 308 < s.exponent then
    none
  else if 0 ≤ s.exponent then
    let scaled := x * tenPowFloat s.exponent.toNat
    if scaled.isFinite then some scaled else none
  else if -308 ≤ s.exponent then
    some (x / tenPowFloat s.exponent.natAbs)
  else if -616 ≤ s.exponent then
    some (x / tenPowFloat 308 / tenPowFloat (s.exponent + 308).natAbs)
  else
    some 0.0

def signedFloat? (s : Scaled) (negative : Bool) : Option Float :=
  s.toFloat?.map fun x => if negative then -x else x

end Scaled
end Decimal
end MixedState
