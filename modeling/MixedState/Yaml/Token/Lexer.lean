import MixedState.Yaml.Token

/-!
# Reading tokens

A key is known by the colon after it.  So the reader keeps where a key may have
begun, outside of brackets and in each pair of them, and puts the token of the key
there once it comes to the colon.
-/

namespace MixedState
namespace Yaml

structure Lexer where
  cursor : Cursor
  tokens : Array Token
  /-- One more than the indentation of each open block, the innermost first. -/
  margins : List Nat
  /-- Where a key may have begun inside the innermost brackets. -/
  start : Option KeyStart
  /-- Where a key may have begun around each open pair of brackets. -/
  outerStarts : List (Option KeyStart)
  keyAllowed : Bool

namespace Lexer

def ofText (text : String) : Lexer :=
  ⟨.ofText text, #[], [], none, [], true⟩

def inFlow (l : Lexer) : Bool :=
  !l.outerStarts.isEmpty

def margin (l : Lexer) : Nat :=
  l.margins.headD 0

def emit (l : Lexer) (token : Token) (c : Cursor) : Lexer :=
  { l with tokens := l.tokens.push token, cursor := c }

def allowKey (l : Lexer) (allowed : Bool) : Lexer :=
  { l with keyAllowed := allowed }

def dropStart? (l : Lexer) : Option Lexer :=
  if l.start.any fun start => start.required then none else some { l with start := none }

/-- A key may begin here, if keys are allowed; at the indentation of a block it
must. -/
def saveStart? (l : Lexer) : Option Lexer :=
  if !l.keyAllowed then
    some l
  else do
    let c := l.cursor
    let required := !l.inFlow && l.margin == c.column + 1
    let l ← l.dropStart?
    return { l with start := some ⟨l.tokens.size, c.index, c.line, c.column, required⟩ }

def dropPast? (l : Lexer) : Option Lexer :=
  let overdue (start : KeyStart) : Bool := start.required && start.isPast l.cursor
  let isOpen (start : KeyStart) : Bool := !start.isPast l.cursor
  if (l.start :: l.outerStarts).any fun start => start.any overdue then
    none
  else
    some { l with
      start := l.start.filter isOpen
      outerStarts := l.outerStarts.map fun start => start.filter isOpen }

def closeBlocks (l : Lexer) (bound : Nat) : Lexer :=
  if l.inFlow then
    l
  else
    let closed := l.margins.takeWhile fun margin => bound < margin
    { l with
      tokens := l.tokens ++ Array.replicate closed.length Token.blockEnd
      margins := l.margins.drop closed.length }

def openBlock (l : Lexer) (token : Token) (position column : Nat) : Lexer :=
  if l.inFlow || column < l.margin then
    l
  else
    { l with
      tokens := l.tokens.insertIdxIfInBounds position token
      margins := (column + 1) :: l.margins }

def openBlockHere (l : Lexer) (token : Token) : Lexer :=
  l.openBlock token l.tokens.size l.cursor.column

def closeDocument? (l : Lexer) : Option Lexer :=
  ((l.closeBlocks 0).allowKey false).dropStart?

def skipSpace (fuel : Nat) (l : Lexer) : Lexer :=
  match fuel with
  | 0 => l
  | fuel + 1 =>
      let c := l.cursor
      let c := if c.index = 0 && c.looksAt '\ufeff' then c.skip else c
      let tabs := l.inFlow || !l.keyAllowed
      let c := (c.skipWhile fun ch => ch = ' ' || (tabs && ch = '\t')).skipComment
      match c.break? with
      | none => { l with cursor := c }
      | some (_, next) =>
          skipSpace fuel { l with cursor := next, keyAllowed := l.keyAllowed || !l.inFlow }

def isIndicator (c : Char) : Bool :=
  ['-', '?', ':', ',', '[', ']', '\x7b', '\x7d', '#', '&', '*', '!', '|', '>', '\'', '"',
    '%', '@', '\x60'].contains c

/-- Whether a plain scalar begins here: a hyphen, or outside of brackets a question
mark or a colon, begins one too unless white space follows. -/
def atPlain (l : Lexer) : Bool :=
  let c := l.cursor
  (!c.spaceAt 0 && !c.sees isIndicator)
    || (c.looksAt '-' && !c.spaceAt 1)
    || (!l.inFlow && (c.looksAt '?' || c.looksAt ':') && !c.spaceAt 1)

/-!
# Single tokens
-/

def openBracket? (l : Lexer) (token : Token) : Option Lexer := do
  let l ← l.saveStart?
  let l := { l with start := none, outerStarts := l.start :: l.outerStarts }
  return (l.allowKey true).emit token l.cursor.skip

def closeBracket? (l : Lexer) (token : Token) : Option Lexer := do
  let l ← l.dropStart?
  let l := match l.outerStarts with
    | [] => l
    | start :: outer => { l with start := start, outerStarts := outer }
  return (l.allowKey false).emit token l.cursor.skip

def comma? (l : Lexer) : Option Lexer := do
  let l ← l.dropStart?
  return (l.allowKey true).emit .comma l.cursor.skip

def entry? (l : Lexer) : Option Lexer := do
  guard (l.inFlow ∨ l.keyAllowed)
  let l ← (l.openBlockHere .sequenceStart).dropStart?
  return (l.allowKey true).emit .entry l.cursor.skip

def key? (l : Lexer) : Option Lexer := do
  guard (l.inFlow ∨ l.keyAllowed)
  let l ← (l.openBlockHere .mappingStart).dropStart?
  return (l.allowKey !l.inFlow).emit .key l.cursor.skip

def value? (l : Lexer) : Option Lexer :=
  match l.start with
  | some start =>
      let l := { l with
        tokens := l.tokens.insertIdxIfInBounds start.position .key
        start := none }
      let l := l.openBlock .mappingStart start.position start.column
      some ((l.allowKey false).emit .value l.cursor.skip)
  | none =>
      if l.inFlow || l.keyAllowed then
        let l := l.openBlockHere .mappingStart
        some ((l.allowKey !l.inFlow).emit .value l.cursor.skip)
      else
        none

def nodePart? (l : Lexer) (part : Option (Token × Cursor)) : Option Lexer := do
  let l ← l.saveStart?
  let (token, c) ← part
  return (l.allowKey false).emit token c

def plain? (l : Lexer) : Option Lexer := do
  let l ← l.saveStart?
  let (text, broken, c) ← plainScalar? l.inFlow l.margin l.cursor
  return (l.allowKey broken).emit (.scalar .plain text) c

def quoted? (l : Lexer) (quote : Char) : Option Lexer :=
  l.nodePart? ((quotedScalar? quote l.cursor).map fun (text, c) => (.scalar .quoted text, c))

def block? (l : Lexer) (style : ScalarStyle) : Option Lexer := do
  let l ← l.dropStart?
  let (text, c) ← blockScalar? (style = .folded) l.margin l.cursor.skip
  return (l.allowKey true).emit (.scalar style text) c

def marker? (l : Lexer) (token : Token) : Option Lexer := do
  let l ← l.closeDocument?
  return l.emit token (l.cursor.skipMany 3)

def directive? (l : Lexer) : Option Lexer := do
  let l ← l.closeDocument?
  let (directive, c) ← Directive.read? l.cursor
  return l.emit (.directive directive) c

def sign? (l : Lexer) (sign : Char) : Option Lexer :=
  let c := l.cursor
  match sign with
  | '[' => l.openBracket? .listOpen
  | ']' => l.closeBracket? .listClose
  | '\x7b' => l.openBracket? .mapOpen
  | '\x7d' => l.closeBracket? .mapClose
  | ',' => l.comma?
  | '-' => l.entry?
  | '?' => l.key?
  | ':' => l.value?
  | '*' => l.nodePart? ((anchorName? c).map fun (name, c) => (.alias name, c))
  | '&' => l.nodePart? ((anchorName? c).map fun (name, c) => (.anchor name, c))
  | '!' => l.nodePart? ((Tag.read? l.inFlow c).map fun (tag, c) => (.tag tag, c))
  | '|' => if l.inFlow then none else l.block? .literal
  | '>' => if l.inFlow then none else l.block? .folded
  | '\'' => l.quoted? '\''
  | '"' => l.quoted? '"'
  | _ => none

def token? (l : Lexer) : Option Lexer :=
  let c := l.cursor
  if c.column = 0 && c.looksAt '%' then l.directive?
  else if c.standsAlone '-' then l.marker? .documentStart
  else if c.standsAlone '.' then l.marker? .documentEnd
  else if l.atPlain then l.plain?
  else c.peek?.bind l.sign?

/-- Reads all tokens.  Fuel past the length of the text always suffices. -/
def run? (fuel : Nat) (l : Lexer) : Option (List Token) :=
  match fuel with
  | 0 => none
  | fuel + 1 => do
      let l ← (l.skipSpace (l.cursor.rest.length + 1)).dropPast?
      let l := l.closeBlocks (l.cursor.column + 1)
      if l.cursor.atEnd then
        return (← l.closeDocument?).tokens.toList
      else
        run? fuel (← l.token?)

end Lexer

def Token.ofText? (text : String) : Option (List Token) :=
  if text.toList.all isAllowed then (Lexer.ofText text).run? (text.length + 1) else none

end Yaml
end MixedState
