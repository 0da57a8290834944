import MixedState.Decimal.Reading
import MixedState.Yaml.Node

/-!
# Numbers in a document

A plain scalar is read as the number that is asked for, whatever its tag; so is a
literal block with the tag of that number.
-/

namespace MixedState
namespace Yaml

/-- The characters of a natural number: decimal without leading zeros, or in base 16,
8 or 2 after `0x`, `0o` or `0b`; a plus sign may stand in front. -/
def readNatural? (cs : List Char) : Option Nat :=
  let body := match cs with
    | '+' :: rest => rest
    | cs => cs
  let n := match body with
    | '0' :: 'x' :: rest => Text.readDigits? 16 rest
    | '0' :: 'o' :: rest => Text.readDigits? 8 rest
    | '0' :: 'b' :: rest => Text.readDigits? 2 rest
    | ['0'] => some 0
    | '0' :: _ => none
    | cs => Text.readDigits? 10 cs
  n.filter fun n => n < 18446744073709551616

def readExponent? : List Char → Option Int
  | [] => some 0
  | e :: rest =>
      if e ≠ 'e' ∧ e ≠ 'E' then none
      else
        match rest with
        | '-' :: digits => (Text.readDigits? 10 digits).map fun n => -Int.ofNat n
        | '+' :: digits => (Text.readDigits? 10 digits).map Int.ofNat
        | digits => (Text.readDigits? 10 digits).map Int.ofNat

def readDecimal? (negative : Bool) (cs : List Char) : Option Float :=
  let (whole, count, rest) := Decimal.leadingDigits 0 0 cs
  let (mantissa, places, rest) := match rest with
    | '.' :: tail => Decimal.leadingDigits whole 0 tail
    | tail => (whole, 0, tail)
  if count + places = 0 then none
  else
    (readExponent? rest).bind fun e =>
      Decimal.toFloat? negative mantissa (e - Int.ofNat places)

def readReal? (cs : List Char) : Option Float :=
  let infinities := [".inf", ".Inf", ".INF"].map String.toList
  let nans := [".nan", ".NaN", ".NAN"].map String.toList
  let infinity : Float := 1.0 / 0.0
  match cs with
  | '+' :: rest => if infinities.contains rest then some infinity else readDecimal? false rest
  | '-' :: rest => if infinities.contains rest then some (-infinity) else readDecimal? true rest
  | cs =>
      if infinities.contains cs then some infinity
      else if nans.contains cs then some (0.0 / 0.0)
      else readDecimal? false cs

namespace Leaf

def mayBe (leaf : Leaf) (tag : String) : Bool :=
  leaf.style = .plain || (leaf.style = .literal && leaf.tag == some tag.toList)

def natural? (leaf : Leaf) : Option Nat :=
  if leaf.mayBe "tag:yaml.org,2002:int" then readNatural? leaf.text else none

def real? (leaf : Leaf) : Option Float :=
  if leaf.mayBe "tag:yaml.org,2002:float" then readReal? leaf.text else none

end Leaf
end Yaml
end MixedState
