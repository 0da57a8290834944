/-!
# Places in a document

What is left of a text, the place where it begins, and the ways to move on.
-/

namespace MixedState
namespace Yaml

def isBlank (c : Char) : Bool :=
  c = ' ' || c = '\t'

def isBreak (c : Char) : Bool :=
  c = '\n' || c = '\r' || c = '\u0085' || c = '\u2028' || c = '\u2029'

def isSpace (c : Char) : Bool :=
  isBlank c || isBreak c

def isAllowed (c : Char) : Bool :=
  let n := c.toNat
  c = '\t' || c = '\n' || c = '\r' || (0x20 ≤ n && n ≤ 0x7E) || n = 0x85
    || (0xA0 ≤ n && n ≤ 0xFFFD) || 0x10000 ≤ n

def isNameChar (c : Char) : Bool :=
  c.isAlphanum || c = '-' || c = '_'

structure Cursor where
  rest : List Char
  /-- Characters before it in the text. -/
  index : Nat
  /-- Line breaks before it in the text. -/
  line : Nat
  /-- Characters before it in its line. -/
  column : Nat

namespace Cursor

def ofText (text : String) : Cursor :=
  ⟨text.toList, 0, 0, 0⟩

def atEnd (c : Cursor) : Bool :=
  c.rest.isEmpty

def peek? (c : Cursor) : Option Char :=
  c.rest.head?

def sees (c : Cursor) (p : Char → Bool) : Bool :=
  c.rest.head?.any p

def looksAt (c : Cursor) (ch : Char) : Bool :=
  c.rest.head? == some ch

def spaceAt (c : Cursor) (k : Nat) : Bool :=
  c.rest[k]?.all isSpace

def skipMany (c : Cursor) (n : Nat) : Cursor :=
  { c with rest := c.rest.drop n, index := c.index + n, column := c.column + n }

def skip (c : Cursor) : Cursor :=
  c.skipMany 1

def takeWhile (c : Cursor) (p : Char → Bool) : List Char × Cursor :=
  let run := c.rest.takeWhile p
  (run, c.skipMany run.length)

theorem takeWhile_append_rest (c : Cursor) (p : Char → Bool) :
    (c.takeWhile p).1 ++ (c.takeWhile p).2.rest = c.rest := by
  have h : c.rest.takeWhile p <+: c.rest := List.takeWhile_prefix p
  exact List.prefix_iff_eq_append.mp h

def skipWhile (c : Cursor) (p : Char → Bool) : Cursor :=
  (c.takeWhile p).2

/-- A line break and the start of the next line.  Separators stand for themselves,
any other break for a line feed. -/
def break? (c : Cursor) : Option (Char × Cursor) :=
  match c.rest with
  | [] => none
  | '\r' :: '\n' :: rest => some ('\n', ⟨rest, c.index + 2, c.line + 1, 0⟩)
  | ch :: rest =>
      if isBreak ch then
        let kept := if ch = '\u2028' ∨ ch = '\u2029' then ch else '\n'
        some (kept, ⟨rest, c.index + 1, c.line + 1, 0⟩)
      else
        none

def skipBreak (c : Cursor) : Cursor :=
  match c.break? with
  | some (_, next) => next
  | none => c

def skipComment (c : Cursor) : Cursor :=
  if c.looksAt '#' then c.skipWhile fun ch => !isBreak ch else c

def lineEnd? (c : Cursor) : Option Cursor :=
  let c := (c.skipWhile isBlank).skipComment
  if c.spaceAt 0 then some c.skipBreak else none

def standsAlone (c : Cursor) (ch : Char) : Bool :=
  c.column == 0 && c.rest.take 3 == [ch, ch, ch] && c.spaceAt 3

def atMarker (c : Cursor) : Bool :=
  c.standsAlone '-' || c.standsAlone '.'

end Cursor
end Yaml
end MixedState
