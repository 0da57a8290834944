import MixedState.Text.Digit

/-!
# Hexadecimal texts of bit lists

Bit lists are little-endian: their first bit is the lowest.
-/

namespace MixedState
namespace Hex

def value (bits : List Bool) : Nat :=
  match bits with
  | [] => 0
  | b :: rest => b.toNat + 2 * value rest

def bitAt (bits : List Bool) (i : Nat) : Bool :=
  bits.getD i false

/-- The number as `0x` and its lower-case digits without leading zeros. -/
def label (n : Nat) : String :=
  "0x" ++ String.ofList (Nat.toDigits 16 n)

def digits : List Bool → List Char
  | [] => []
  | [a] => [Nat.digitChar (value [a])]
  | [a, b] => [Nat.digitChar (value [a, b])]
  | [a, b, c] => [Nat.digitChar (value [a, b, c])]
  | a :: b :: c :: d :: rest => Nat.digitChar (value [a, b, c, d]) :: digits rest

def ofBits (bits : List Bool) : String :=
  match (digits bits).reverse.dropWhile fun c => c = '0' with
  | [] => "0x0"
  | cs => "0x" ++ String.ofList cs

def nibble (n : Nat) : List Bool :=
  [n.testBit 0, n.testBit 1, n.testBit 2, n.testBit 3]

def body : List Char → List Char
  | '0' :: 'x' :: rest => rest
  | '0' :: 'X' :: rest => rest
  | cs => cs

/-- Four bits for each digit; none of an empty text or another character. -/
def toBits? (text : String) : Option (List Bool) :=
  match body text.toList with
  | [] => none
  | cs => (cs.reverse.mapM Text.hexDigit?).map fun ds => ds.flatMap nibble

def compareBits (a b : List Bool) : Ordering :=
  go (max a.length b.length)
where
  go : Nat → Ordering
    | 0 => .eq
    | i + 1 =>
        match bitAt a i, bitAt b i with
        | true, false => .gt
        | false, true => .lt
        | _, _ => go i

end Hex
end MixedState
