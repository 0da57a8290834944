import MixedState.Decimal.Scaled
import MixedState.Json.Basic
import MixedState.Text.Digit

/-!
# Reading JSON text

The grammar is strict: no comments, no trailing commas, no leading zeros, no
control characters in strings.  An integer literal that fits a signed or
unsigned word stays an integer, any other number is read as a double from the
digits that fit a word, and `-0` is the negative zero.
-/

namespace MixedState
namespace Json

def skipBlanks : List Char → List Char
  | [] => []
  | c :: rest =>
      if c = ' ' ∨ c = '\n' ∨ c = '\r' ∨ c = '\t' then skipBlanks rest else c :: rest

def unit? (a b c d : Char) : Option Nat :=
  Text.readDigits? 16 [a, b, c, d]

def isHighSurrogate (n : Nat) : Bool :=
  0xD800 ≤ n && n < 0xDC00

def isLowSurrogate (n : Nat) : Bool :=
  0xDC00 ≤ n && n < 0xE000

def finish (reversed : List Char) (whole : Bool) : Option String :=
  if whole then some (String.ofList reversed.reverse) else none

def stringTail (reversed : List Char) (whole : Bool) :
    List Char → Option (Option String × List Char)
  | [] => none
  | '"' :: rest => some (finish reversed whole, rest)
  | '\\' :: 'u' :: a :: b :: c :: d :: rest =>
      match unit? a b c d with
      | none => none
      | some n =>
          if isHighSurrogate n then
            match rest with
            | '\\' :: 'u' :: e :: f :: g :: h :: rest' =>
                match unit? e f g h with
                | none => none
                | some m =>
                    if isLowSurrogate m then
                      let point := 0x10000 + (n - 0xD800) * 0x400 + (m - 0xDC00)
                      stringTail (Char.ofNat point :: reversed) whole rest'
                    else
                      stringTail reversed false ('\\' :: 'u' :: e :: f :: g :: h :: rest')
            | rest => stringTail reversed false rest
          else if isLowSurrogate n then
            stringTail reversed false rest
          else
            stringTail (Char.ofNat n :: reversed) whole rest
  | '\\' :: c :: rest =>
      match c with
      | '"' => stringTail ('"' :: reversed) whole rest
      | '\\' => stringTail ('\\' :: reversed) whole rest
      | '/' => stringTail ('/' :: reversed) whole rest
      | 'b' => stringTail ('\x08' :: reversed) whole rest
      | 'f' => stringTail ('\x0c' :: reversed) whole rest
      | 'n' => stringTail ('\n' :: reversed) whole rest
      | 'r' => stringTail ('\r' :: reversed) whole rest
      | 't' => stringTail ('\t' :: reversed) whole rest
      | _ => none
  | c :: rest => if c.toNat < 0x20 ∨ c = '\\' then none else stringTail (c :: reversed) whole rest

def ofScaled (negative : Bool) (s : Decimal.Scaled) : Json Float :=
  match s.signedFloat? negative with
  | some x => .real x
  | none => .unreadable

def ofInteger (negative : Bool) (n : Nat) : Json Float :=
  if !negative then .int (Int.ofNat n)
  else if n = 0 ∨ 9223372036854775808 < n then ofScaled true ⟨n, 0⟩
  else .int (-Int.ofNat n)

def exponent? : List Char → Option (Int × List Char)
  | '-' :: rest => (digits rest).map fun (n, rest) => (-Int.ofNat n, rest)
  | '+' :: rest => (digits rest).map fun (n, rest) => (Int.ofNat n, rest)
  | rest => (digits rest).map fun (n, rest) => (Int.ofNat n, rest)
where
  digits (s : List Char) : Option (Nat × List Char) :=
    match Decimal.leadingDigits 0 0 s with
    | (_, 0, _) => none
    | (n, _, rest) => some (n, rest)

/-- The fraction after the integer part of a number.  Digits that fit the word join
it, later ones are left out. -/
def fraction? (s : Decimal.Scaled) : List Char → Option (Decimal.Scaled × List Char)
  | '.' :: rest =>
      let (word, places, rest) := Decimal.wordDigits s.word 0 rest
      let (passed, rest) := Decimal.passDigits rest
      if places + passed = 0 then none
      else some (⟨word, s.exponent - Int.ofNat places⟩, rest)
  | rest => some (s, rest)

/-- Reads a number.  Digits of the integer part that do not fit its word count as
zeros. -/
def number? (s : List Char) : Option (Json Float × List Char) := do
  let (negative, s) := match s with
    | '-' :: rest => (true, rest)
    | s => (false, s)
  let (word, count, rest) := Decimal.wordDigits 0 0 s
  guard (count ≠ 0 ∧ (count = 1 ∨ s.head? ≠ some '0'))
  let (passed, rest) := Decimal.passDigits rest
  let (scaled, rest') ← fraction? ⟨word, Int.ofNat passed⟩ rest
  let (exponent, rest'') ← match rest' with
    | 'e' :: tail => exponent? tail
    | 'E' :: tail => exponent? tail
    | tail => some (0, tail)
  if passed = 0 ∧ rest''.length = rest.length then
    return (ofInteger negative word, rest'')
  else
    return (ofScaled negative ⟨scaled.word, scaled.exponent + exponent⟩, rest'')

mutual

/-- Reads a value.  Fuel past the length of the text always suffices. -/
def value? (fuel : Nat) (s : List Char) : Option (Json Float × List Char) :=
  match fuel with
  | 0 => none
  | fuel + 1 =>
      match skipBlanks s with
      | 'n' :: 'u' :: 'l' :: 'l' :: rest => some (.null, rest)
      | 't' :: 'r' :: 'u' :: 'e' :: rest => some (.bool true, rest)
      | 'f' :: 'a' :: 'l' :: 's' :: 'e' :: rest => some (.bool false, rest)
      | '"' :: rest =>
          match stringTail [] true rest with
          | some (some text, rest) => some (.str text, rest)
          | some (none, rest) => some (.unreadable, rest)
          | none => none
      | '[' :: rest =>
          match skipBlanks rest with
          | ']' :: rest => some (.arr [], rest)
          | rest => elements? fuel [] rest
      | '{' :: rest =>
          match skipBlanks rest with
          | '}' :: rest => some (.obj [], rest)
          | rest => members? fuel [] true rest
      | s => number? s

def elements? (fuel : Nat) (reversed : List (Json Float)) (s : List Char) :
    Option (Json Float × List Char) :=
  match fuel with
  | 0 => none
  | fuel + 1 =>
      match value? fuel s with
      | none => none
      | some (v, rest) =>
          match skipBlanks rest with
          | ',' :: rest => elements? fuel (v :: reversed) rest
          | ']' :: rest => some (.arr (v :: reversed).reverse, rest)
          | _ => none

def members? (fuel : Nat) (reversed : List (String × Json Float)) (whole : Bool)
    (s : List Char) : Option (Json Float × List Char) :=
  match fuel with
  | 0 => none
  | fuel + 1 =>
      match skipBlanks s with
      | '"' :: rest =>
          match stringTail [] true rest with
          | none => none
          | some (name, rest) =>
              match skipBlanks rest with
              | ':' :: rest =>
                  match value? fuel rest with
                  | none => none
                  | some (v, rest) =>
                      let whole := whole && name.isSome
                      let reversed := (name.getD "", v) :: reversed
                      match skipBlanks rest with
                      | ',' :: rest => members? fuel reversed whole rest
                      | '}' :: rest =>
                          some (if whole then .obj reversed.reverse else .unreadable, rest)
                      | _ => none
              | _ => none
      | _ => none

end

def parse? (text : String) : Option (Json Float) :=
  let s := text.toList
  match value? (s.length + 1) s with
  | some (v, rest) => if (skipBlanks rest).isEmpty then some v else none
  | none => none

end Json
end MixedState
