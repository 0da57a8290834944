import MixedState.Yaml.Token.Lexer

/-!
# Documents

A document is a tree of scalars, sequences and mappings.  Blocks and brackets give
the same trees.
-/

namespace MixedState
namespace Yaml

structure Leaf where
  style : ScalarStyle
  tag : Option (List Char)
  text : List Char
  deriving DecidableEq

inductive Node where
  /-- The node of an anchor by its number. -/
  | alias (number : Nat)
  | scalar (leaf : Leaf)
  | sequence (items : List Node)
  | mapping (pairs : List (Node × Node))

namespace Node

def empty : Node :=
  .scalar ⟨.plain, none, []⟩

end Node

/-- The anchors so far.  The number of an anchor is how many names there were before
it, so that a name used again makes two anchors share a number; then the later one
counts. -/
structure Anchors where
  names : List (List Char × Nat)
  /-- The anchored nodes by their numbers, the latest first, as far as they are
  scalars. -/
  leaves : List (Nat × Option Leaf)

namespace Anchors

def empty : Anchors :=
  ⟨[], []⟩

def declare (anchors : Anchors) (name : Option (List Char)) (leaf : Option Leaf) : Anchors :=
  match name with
  | none => anchors
  | some name =>
      let number := anchors.names.length
      { names := (name, number) :: anchors.names.filter fun known => known.1 ≠ name
        leaves := (number, leaf) :: anchors.leaves }

def find? (anchors : Anchors) (name : List Char) : Option Nat :=
  anchors.names.lookup name

theorem lookup_filter_of_ne {name other : List Char} (h : other ≠ name)
    (known : List (List Char × Nat)) :
    (known.filter fun pair => pair.1 ≠ name).lookup other = known.lookup other := by
  induction known with
  | nil =>
      rfl
  | cons pair rest ih =>
      obtain ⟨key, number⟩ := pair
      by_cases hkey : key = name
      · have hother : (other == key) = false := by simp [hkey, h]
        rw [List.filter_cons_of_neg (by simp [hkey]), List.lookup_cons, hother]
        exact ih
      · rw [List.filter_cons_of_pos (by simp [hkey]), List.lookup_cons, List.lookup_cons, ih]

theorem find?_declare_self (anchors : Anchors) (name : List Char) (leaf : Option Leaf) :
    (anchors.declare (some name) leaf).find? name = some anchors.names.length := by
  simp [declare, find?]

theorem find?_declare_of_ne (anchors : Anchors) {name other : List Char}
    (leaf : Option Leaf) (h : other ≠ name) :
    (anchors.declare (some name) leaf).find? other = anchors.find? other := by
  have hname : (other == name) = false := by simp [h]
  change ((name, anchors.names.length) :: anchors.names.filter _).lookup other = _
  rw [List.lookup_cons, hname]
  exact lookup_filter_of_ne h anchors.names

def leaf? (anchors : Anchors) : Node → Option Leaf
  | .scalar leaf => some leaf
  | .alias number => (anchors.leaves.lookup number).join
  | _ => none

end Anchors

structure Remainder where
  tokens : List Token
  anchors : Anchors

namespace Remainder

def sees (r : Remainder) (tokens : List Token) : Bool :=
  r.tokens.head?.any tokens.contains

def rest (r : Remainder) : Remainder :=
  { r with tokens := r.tokens.tail }

def skip? (r : Remainder) (token : Token) : Option Remainder :=
  if r.tokens.head? == some token then some r.rest else none

def declare (r : Remainder) (name : Option (List Char)) (leaf : Option Leaf) : Remainder :=
  { r with anchors := r.anchors.declare name leaf }

def properties (r : Remainder) : Option (List Char) × Option Tag × Remainder :=
  match r.tokens with
  | .anchor name :: .tag tag :: rest => (some name, some tag, { r with tokens := rest })
  | .tag tag :: .anchor name :: rest => (some name, some tag, { r with tokens := rest })
  | .anchor name :: rest => (some name, none, { r with tokens := rest })
  | .tag tag :: rest => (none, some tag, { r with tokens := rest })
  | _ => (none, none, r)

end Remainder

inductive Site where
  /-- An item of a block, or the root. -/
  | item
  /-- In a pair of a block.  The items of a sequence there need no indentation. -/
  | pair
  /-- Inside brackets. -/
  | bracket
  deriving DecidableEq

abbrev Handles :=
  List (List Char × List Char)

mutual

def node? (fuel : Nat) (handles : Handles) (site : Site) (r : Remainder) :
    Option (Node × Remainder) :=
  match fuel with
  | 0 => none
  | fuel + 1 =>
      match r.tokens.head? with
      | some (.alias name) =>
          (r.anchors.find? name).map fun number => (.alias number, r.rest)
      | _ => do
          let (anchor, tag, r) := r.properties
          let tag ← tag.mapM (Tag.resolve? handles)
          let inner := r.rest.declare anchor none
          let sequence (result : Option (List Node × Remainder)) :=
            result.map fun (items, r) => (Node.sequence items, r)
          let mapping (result : Option (List (Node × Node) × Remainder)) :=
            result.map fun (pairs, r) => (Node.mapping pairs, r)
          match r.tokens.head?, site with
          | some (.scalar style text), _ =>
              let leaf : Leaf := ⟨style, tag, text⟩
              return (.scalar leaf, r.rest.declare anchor (some leaf))
          | some .listOpen, _ => sequence (listItems? fuel handles true inner)
          | some .mapOpen, _ => mapping (mapPairs? fuel handles true inner)
          | some .sequenceStart, .item => sequence (blockItems? fuel handles inner)
          | some .sequenceStart, .pair => sequence (blockItems? fuel handles inner)
          | some .mappingStart, .item => mapping (blockPairs? fuel handles inner)
          | some .mappingStart, .pair => mapping (blockPairs? fuel handles inner)
          | some .entry, .pair =>
              sequence (pairItems? fuel handles (r.declare anchor none))
          | _, _ =>
              guard (anchor.isSome ∨ tag.isSome)
              let leaf : Leaf := ⟨.plain, tag, []⟩
              return (.scalar leaf, r.declare anchor (some leaf))

def nodeBefore? (fuel : Nat) (handles : Handles) (site : Site) (ends : List Token)
    (r : Remainder) : Option (Node × Remainder) :=
  match fuel with
  | 0 => none
  | fuel + 1 => if r.sees ends then some (.empty, r) else node? fuel handles site r

def pairValue? (fuel : Nat) (handles : Handles) (site : Site) (ends : List Token)
    (r : Remainder) : Option (Node × Remainder) :=
  match fuel with
  | 0 => none
  | fuel + 1 =>
      match r.skip? .value with
      | some r => nodeBefore? fuel handles site ends r
      | none => some (.empty, r)

def blockItems? (fuel : Nat) (handles : Handles) (r : Remainder) :
    Option (List Node × Remainder) :=
  match fuel with
  | 0 => none
  | fuel + 1 =>
      match r.skip? .blockEnd with
      | some r => some ([], r)
      | none => do
          let r ← r.skip? .entry
          let (item, r) ← nodeBefore? fuel handles .item [.entry, .blockEnd] r
          let (items, r) ← blockItems? fuel handles r
          return (item :: items, r)

def pairItems? (fuel : Nat) (handles : Handles) (r : Remainder) :
    Option (List Node × Remainder) :=
  match fuel with
  | 0 => none
  | fuel + 1 =>
      match r.skip? .entry with
      | none => some ([], r)
      | some r => do
          let ends := [.entry, .key, .value, .blockEnd]
          let (item, r) ← nodeBefore? fuel handles .item ends r
          let (items, r) ← pairItems? fuel handles r
          return (item :: items, r)

def blockPairs? (fuel : Nat) (handles : Handles) (r : Remainder) :
    Option (List (Node × Node) × Remainder) :=
  match fuel with
  | 0 => none
  | fuel + 1 =>
      match r.skip? .blockEnd with
      | some r => some ([], r)
      | none => do
          let ends := [.key, .value, .blockEnd]
          let r ← r.skip? .key
          let (key, r) ← nodeBefore? fuel handles .pair ends r
          let (value, r) ← pairValue? fuel handles .pair ends r
          let (pairs, r) ← blockPairs? fuel handles r
          return ((key, value) :: pairs, r)

/-- Reads the items of a list up to its bracket, and past a comma unless `first`.  A
pair may stand for a mapping with no other; after a question mark without a key, one
token is passed over. -/
def listItems? (fuel : Nat) (handles : Handles) (first : Bool) (r : Remainder) :
    Option (List Node × Remainder) :=
  match fuel with
  | 0 => none
  | fuel + 1 =>
      match r.skip? .listClose with
      | some r => some ([], r)
      | none => do
          let r ← if first then some r else r.skip? .comma
          let ends := [.comma, .listClose]
          match r.skip? .listClose, r.skip? .key with
          | some r, _ => return ([], r)
          | none, some r =>
              let (key, r) ←
                if r.sees (.value :: ends) then some (Node.empty, r.rest)
                else node? fuel handles .bracket r
              let (value, r) ← pairValue? fuel handles .bracket ends r
              let (items, r) ← listItems? fuel handles false r
              return (.mapping [(key, value)] :: items, r)
          | none, none =>
              let (item, r) ← node? fuel handles .bracket r
              let (items, r) ← listItems? fuel handles false r
              return (item :: items, r)

def mapPairs? (fuel : Nat) (handles : Handles) (first : Bool) (r : Remainder) :
    Option (List (Node × Node) × Remainder) :=
  match fuel with
  | 0 => none
  | fuel + 1 =>
      match r.skip? .mapClose with
      | some r => some ([], r)
      | none => do
          let r ← if first then some r else r.skip? .comma
          let ends := [.comma, .mapClose]
          match r.skip? .mapClose, r.skip? .key with
          | some r, _ => return ([], r)
          | none, some r =>
              let (key, r) ← nodeBefore? fuel handles .bracket (.value :: ends) r
              let (value, r) ← pairValue? fuel handles .bracket ends r
              let (pairs, r) ← mapPairs? fuel handles false r
              return ((key, value) :: pairs, r)
          | none, none =>
              let (key, r) ← node? fuel handles .bracket r
              let (pairs, r) ← mapPairs? fuel handles false r
              return ((key, .empty) :: pairs, r)

end

def splitDirectives : List Token → List Directive × List Token
  | .directive directive :: rest =>
      let (directives, rest) := splitDirectives rest
      (directive :: directives, rest)
  | tokens => ([], tokens)

def handles? (directives : List Directive) : Option Handles := do
  let versions := directives.filterMap fun
    | .version major minor => some (major, minor)
    | .tagHandle _ _ => none
  let declared := directives.filterMap fun
    | .version _ _ => none
    | .tagHandle handle leading => some (handle, leading)
  guard (versions.length ≤ 1 ∧ versions.all fun v => v = (1, 1) ∨ v = (1, 2))
  guard (declared.map fun known => known.1).Nodup
  return declared ++ Tag.standardHandles

structure Document where
  /-- A text of blanks and comments has no root. -/
  root : Option Node
  anchors : Anchors

namespace Document

def leaf? (document : Document) (node : Node) : Option Leaf :=
  document.anchors.leaf? node

def isOver (tokens : List Token) : Bool :=
  tokens.all fun token => token == .documentEnd

def ofTokens? (tokens : List Token) : Option Document := do
  let (directives, body) := splitDirectives tokens
  let handles ← handles? directives
  let rest := match body with
    | .documentStart :: rest => some rest
    | _ => none
  if tokens.isEmpty then
    return ⟨none, .empty⟩
  else if rest.any isOver then
    return ⟨some .empty, .empty⟩
  else
    guard (directives.isEmpty ∨ rest.isSome)
    let tokens := rest.getD body
    let (root, r) ← node? (4 * tokens.length + 8) handles .item ⟨tokens, .empty⟩
    guard (isOver r.tokens)
    return ⟨some root, r.anchors⟩

def ofText? (text : String) : Option Document :=
  (Token.ofText? text).bind ofTokens?

end Document
end Yaml
end MixedState
