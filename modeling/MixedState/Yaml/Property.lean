import MixedState.Text.Digit
import MixedState.Yaml.Cursor

/-!
# Names, tags and directives

An anchor names a node and an alias stands for the node of that name.  A tag tells
the kind of a node, in short behind a handle that a directive may declare.
-/

namespace MixedState
namespace Yaml

def endsName (c : Char) : Bool :=
  ['?', ':', ',', ']', '\x7d', '%', '@', '\x60'].contains c

def anchorName? (c : Cursor) : Option (List Char × Cursor) :=
  let (name, c) := c.skip.takeWhile isNameChar
  if name.isEmpty || !(c.spaceAt 0 || c.sees endsName) then none else some (name, c)

/-!
# Tags
-/

def isTagChar (delimited : Bool) (c : Char) : Bool :=
  isNameChar c || ";/?:@&=+$.!~*'()".toList.contains c
    || (delimited && [',', '[', ']'].contains c)

def octetsAfter? (octet : Nat) : Option Nat :=
  if octet < 0x80 then some 0
  else if octet < 0xC0 then none
  else if octet < 0xE0 then some 1
  else if octet < 0xF0 then some 2
  else if octet < 0xF8 then some 3
  else none

def octetsLeft? (pending octet : Nat) : Option Nat :=
  match pending with
  | 0 => octetsAfter? octet
  | pending + 1 => if 0x80 ≤ octet ∧ octet < 0xC0 then some pending else none

/-- The characters of a tag, and how many characters they are written with.  An octet
may be written as a percent sign and two digits; those of one character follow each
other. -/
def tagRun? (delimited : Bool) (pending : Nat) : List Char → Option (List Char × Nat)
  | '%' :: a :: b :: rest => do
      let octet ← Text.readDigits? 16 [a, b]
      let pending ← octetsLeft? pending octet
      let (run, n) ← tagRun? delimited pending rest
      return (Char.ofNat octet :: run, n + 3)
  | [] => if pending = 0 then some ([], 0) else none
  | c :: rest =>
      if pending ≠ 0 || c = '%' then none
      else if isTagChar delimited c then
        (tagRun? delimited 0 rest).map fun (run, n) => (c :: run, n + 1)
      else some ([], 0)

def tagText? (delimited : Bool) (c : Cursor) : Option (List Char × Cursor) :=
  (tagRun? delimited 0 c.rest).map fun (run, n) =>
    (run.takeWhile fun d => d ≠ '\x00', c.skipMany n)

def someTagText? (delimited : Bool) (c : Cursor) : Option (List Char × Cursor) := do
  let (text, next) ← tagText? delimited c
  guard (c.index < next.index)
  return (text, next)

def tagHandle? (c : Cursor) : Option (List Char × Cursor) :=
  if !c.looksAt '!' then none
  else
    let (name, c) := c.skip.takeWhile isNameChar
    if c.looksAt '!' then some ('!' :: name ++ ['!'], c.skip) else some ('!' :: name, c)

def isFullHandle (handle : List Char) : Bool :=
  1 < handle.length && handle.getLast? == some '!'

structure Tag where
  handle : List Char
  suffix : List Char
  deriving DecidableEq

namespace Tag

def readDelimited? (c : Cursor) : Option (Tag × Cursor) := do
  let (text, c) ← someTagText? true c
  guard (c.looksAt '>')
  return (⟨[], text⟩, c.skip)

/-- A tag behind a handle; without a name of its own the handle is a single mark, and
that mark alone is a tag in full. -/
def readShort? (c : Cursor) : Option (Tag × Cursor) := do
  let (handle, c) ← tagHandle? c
  if isFullHandle handle then
    let (suffix, c) ← someTagText? false c
    return (⟨handle, suffix⟩, c)
  else
    let (rest, c) ← tagText? false c
    let suffix := handle.tail ++ rest
    return (if suffix.isEmpty then ⟨[], ['!']⟩ else ⟨['!'], suffix⟩, c)

def read? (inFlow : Bool) (c : Cursor) : Option (Tag × Cursor) := do
  let (tag, c) ← if c.skip.looksAt '<' then readDelimited? (c.skipMany 2) else readShort? c
  guard (c.spaceAt 0 ∨ (inFlow ∧ c.looksAt ','))
  return (tag, c)

def resolve? (handles : List (List Char × List Char)) (tag : Tag) : Option (List Char) :=
  if tag.handle.isEmpty then some tag.suffix
  else (handles.lookup tag.handle).map fun leading => leading ++ tag.suffix

def standardHandles : List (List Char × List Char) :=
  [(['!'], ['!']), (['!', '!'], "tag:yaml.org,2002:".toList)]

end Tag

/-!
# Directives
-/

inductive Directive where
  | version (major minor : Nat)
  | tagHandle (handle leading : List Char)
  deriving DecidableEq

namespace Directive

def number? (c : Cursor) : Option (Nat × Cursor) := do
  let (digits, c) := c.takeWhile fun d => (Text.digitValue? 10 d).isSome
  guard (digits.length ≤ 9)
  return (← Text.readDigits? 10 digits, c)

def readVersion? (c : Cursor) : Option (Directive × Cursor) := do
  let (major, c) ← number? c
  guard (c.looksAt '.')
  let (minor, c) ← number? c.skip
  return (.version major minor, c)

def readHandle? (c : Cursor) : Option (Directive × Cursor) := do
  let (handle, c) ← tagHandle? c
  guard (isFullHandle handle ∨ handle = ['!'])
  guard (c.sees isBlank)
  let (leading, c) ← someTagText? true (c.skipWhile isBlank)
  guard (c.spaceAt 0)
  return (.tagHandle handle leading, c)

def read? (c : Cursor) : Option (Directive × Cursor) := do
  let (name, c) := c.skip.takeWhile isNameChar
  guard (c.spaceAt 0)
  let c := c.skipWhile isBlank
  let (directive, c) ← match String.ofList name with
    | "YAML" => readVersion? c
    | "TAG" => readHandle? c
    | _ => none
  return (directive, ← c.lineEnd?)

end Directive
end Yaml
end MixedState
