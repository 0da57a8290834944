import MixedState.Text.Digit
import MixedState.Yaml.Cursor

/-!
# Scalars in a document

A scalar is a piece of text: plain, in quotes, or a block of lines.  A line break
inside a scalar that is not a literal block is folded: one break stands for a blank,
and of several the first is dropped.
-/

namespace MixedState
namespace Yaml

inductive ScalarStyle where
  | plain
  | quoted
  | literal
  | folded
  deriving DecidableEq, Repr

structure Gap where
  /-- Blanks before the first line break. -/
  blanks : List Char
  breaks : List Char
  /-- Whether a line break that is not kept came first. -/
  escaped : Bool

namespace Gap

def empty : Gap :=
  ⟨[], [], false⟩

def isBroken (gap : Gap) : Bool :=
  gap.escaped || !gap.breaks.isEmpty

def addBlank (gap : Gap) (c : Char) : Gap :=
  if gap.isBroken then gap else { gap with blanks := gap.blanks ++ [c] }

def addBreak (gap : Gap) (c : Char) : Gap :=
  { gap with breaks := gap.breaks ++ [c] }

def fold : List Char → List Char
  | ['\n'] => [' ']
  | '\n' :: rest => rest
  | breaks => breaks

def text (gap : Gap) : List Char :=
  if gap.escaped then gap.breaks
  else if gap.breaks.isEmpty then gap.blanks
  else fold gap.breaks

end Gap

def gap? (fuel margin : Nat) (gap : Gap) (c : Cursor) : Option (Gap × Cursor) :=
  match fuel with
  | 0 => none
  | fuel + 1 =>
      match c.break?, c.peek? with
      | some (ch, next), _ => gap? fuel margin (gap.addBreak ch) next
      | none, none => some (gap, c)
      | none, some ch =>
          if !isBlank ch then some (gap, c)
          else if gap.isBroken && c.column < margin && ch = '\t' then none
          else gap? fuel margin (gap.addBlank ch) c.skip

/-!
# Plain scalars
-/

def isFlowMark (c : Char) : Bool :=
  [',', '[', ']', '\x7b', '\x7d'].contains c

/-- The characters of a plain scalar up to white space or its end.  Inside brackets
no bracket, comma or question mark may follow a colon. -/
def plainRun? (inFlow : Bool) : List Char → Option (List Char)
  | [] => some []
  | c :: rest =>
      if isSpace c then some []
      else if inFlow && c = ':' && rest.head?.any (fun d => isFlowMark d || d = '?') then none
      else if c = ':' && rest.head?.all isSpace then some []
      else if inFlow && isFlowMark c then some []
      else (plainRun? inFlow rest).map (c :: ·)

/-- The rest of a plain scalar after some text and a gap; also whether the last gap
goes on to another line. -/
def plainParts? (fuel : Nat) (inFlow : Bool) (margin : Nat) (text : List Char) (gap : Gap)
    (c : Cursor) : Option (List Char × Bool × Cursor) :=
  match fuel with
  | 0 => none
  | fuel + 1 =>
      if c.atMarker || c.looksAt '#' then
        some (text, gap.isBroken, c)
      else do
        let run ← plainRun? inFlow c.rest
        let c := c.skipMany run.length
        let (text, gap) := if run.isEmpty then (text, gap) else (text ++ gap.text ++ run, .empty)
        if !c.sees isSpace then
          return (text, gap.isBroken, c)
        else
          let (gap, c) ← gap? (c.rest.length + 1) margin gap c
          if !inFlow && c.column < margin then
            return (text, gap.isBroken, c)
          else
            plainParts? fuel inFlow margin text gap c

def plainScalar? (inFlow : Bool) (margin : Nat) (c : Cursor) :
    Option (List Char × Bool × Cursor) :=
  plainParts? (c.rest.length + 1) inFlow margin [] .empty c

/-!
# Quoted scalars
-/

def singleRun : List Char → List Char × Nat
  | [] => ([], 0)
  | '\'' :: '\'' :: rest =>
      let (run, n) := singleRun rest
      ('\'' :: run, n + 2)
  | c :: rest =>
      if isSpace c || c = '\'' then ([], 0)
      else
        let (run, n) := singleRun rest
        (c :: run, n + 1)

def escape? : Char → Option Char
  | '0' => some '\x00'
  | 'a' => some '\x07'
  | 'b' => some '\x08'
  | 't' => some '\t'
  | '\t' => some '\t'
  | 'n' => some '\n'
  | 'v' => some '\x0b'
  | 'f' => some '\x0c'
  | 'r' => some '\r'
  | 'e' => some '\x1b'
  | ' ' => some ' '
  | '"' => some '"'
  | '/' => some '/'
  | '\\' => some '\\'
  | 'N' => some '\u0085'
  | '_' => some '\u00a0'
  | 'L' => some '\u2028'
  | 'P' => some '\u2029'
  | _ => none

def codeWidth? : Char → Option Nat
  | 'x' => some 2
  | 'u' => some 4
  | 'U' => some 8
  | _ => none

def character? (n : Nat) : Option Char :=
  if n.isValidChar then some (Char.ofNat n) else none

def escaped? (letter : Char) (rest : List Char) : Option (Char × Nat) :=
  match codeWidth? letter with
  | none => (escape? letter).map fun c => (c, 1)
  | some width => do
      let digits := rest.take width
      guard (digits.length = width)
      let c ← character? (← Text.readDigits? 16 digits)
      return (c, width + 1)

def doubleRun? (fuel : Nat) (cs : List Char) : Option (List Char × Nat) :=
  match fuel, cs with
  | 0, _ => none
  | _, [] => some ([], 0)
  | fuel + 1, '\\' :: rest =>
      match rest with
      | [] => none
      | letter :: tail =>
          if isBreak letter then some ([], 0)
          else do
            let (c, n) ← escaped? letter tail
            let (run, m) ← doubleRun? fuel (rest.drop n)
            return (c :: run, m + n + 1)
  | fuel + 1, c :: rest =>
      if isSpace c || c = '"' then some ([], 0)
      else (doubleRun? fuel rest).map fun (run, n) => (c :: run, n + 1)

def quotedParts? (fuel : Nat) (quote : Char) (text : List Char) (c : Cursor) :
    Option (List Char × Cursor) :=
  match fuel with
  | 0 => none
  | fuel + 1 =>
      if c.atMarker || c.atEnd then
        none
      else do
        let (run, n) ← if quote = '"' then doubleRun? (c.rest.length + 1) c.rest
          else some (singleRun c.rest)
        let text := text ++ run
        let c := c.skipMany n
        let escaped := c.looksAt '\\'
        let c := if escaped then c.skip.skipBreak else c
        if c.looksAt quote then
          return (text, c.skip)
        else
          let (gap, c) ← gap? (c.rest.length + 1) 0 { Gap.empty with escaped := escaped } c
          quotedParts? fuel quote (text ++ gap.text) c

def quotedScalar? (quote : Char) (c : Cursor) : Option (List Char × Cursor) :=
  quotedParts? (c.rest.length + 1) quote [] c.skip

/-!
# Block scalars
-/

inductive Chomp where
  | strip
  | clip
  | keep
  deriving DecidableEq, Repr

def chomp? : Char → Option Chomp
  | '-' => some .strip
  | '+' => some .keep
  | _ => none

def readChomp (c : Cursor) : Chomp × Cursor :=
  match c.peek?.bind chomp? with
  | some chomp => (chomp, c.skip)
  | none => (.clip, c)

def readIndent? (c : Cursor) : Option (Option Nat × Cursor) :=
  match c.peek?.bind (Text.digitValue? 10) with
  | none => some (none, c)
  | some 0 => none
  | some n => some (some n, c.skip)

def blockHeader? (c : Cursor) : Option (Chomp × Option Nat × Cursor) := do
  let (chomp, c) := readChomp c
  let (indent, c) ← readIndent? c
  let (chomp, c) := if chomp = .clip then readChomp c else (chomp, c)
  return (chomp, indent, ← c.lineEnd?)

def skipIndent (indent? : Option Nat) (c : Cursor) : Cursor :=
  let blanks := (c.rest.takeWhile fun ch => ch = ' ').length
  match indent? with
  | none => c.skipMany blanks
  | some indent => c.skipMany (min blanks (indent - c.column))

/-- Reads empty lines of a block.  Where its indentation is not known, that is the
widest of them and of the next line, but at least `margin` and one. -/
def blockBreaks? (fuel margin : Nat) (indent? : Option Nat) (widest : Nat)
    (breaks : List Char) (c : Cursor) : Option (Nat × List Char × Cursor) :=
  match fuel with
  | 0 => none
  | fuel + 1 =>
      let c := skipIndent indent? c
      let widest := max widest c.column
      if indent?.all (fun indent => c.column < indent) && c.looksAt '\t' then
        none
      else
        match c.break? with
        | some (ch, next) => blockBreaks? fuel margin indent? widest (breaks ++ [ch]) next
        | none => some (indent?.getD (max widest (max margin 1)), breaks, c)

/-- The parts of a block read so far: its text, the break after its last line, the
breaks of the empty lines after that, and whether that line began with a blank. -/
structure Block where
  text : List Char
  lead : List Char
  trail : List Char
  afterBlank : Bool

/-- The breaks before the next line of a block.  In a folded block, the break between
two lines that begin with no blank is folded. -/
def Block.joint (block : Block) (folded blank : Bool) : List Char :=
  if folded && block.lead == ['\n'] && !block.afterBlank && !blank then
    if block.trail.isEmpty then [' '] else block.trail
  else
    block.lead ++ block.trail

def blockLines? (fuel : Nat) (folded : Bool) (indent : Nat) (block : Block) (c : Cursor) :
    Option (Block × Cursor) :=
  match fuel with
  | 0 => none
  | fuel + 1 =>
      if c.column ≠ indent || c.atEnd then
        some (block, c)
      else do
        let blank := c.sees isBlank
        let (line, c) := c.takeWhile fun ch => !isBreak ch
        let text := block.text ++ block.joint folded blank ++ line
        let (lead, c) := match c.break? with
          | some (ch, next) => ([ch], next)
          | none => ([], c)
        let (_, trail, c) ← blockBreaks? (c.rest.length + 1) 0 (some indent) 0 [] c
        blockLines? fuel folded indent ⟨text, lead, trail, blank⟩ c

def blockScalar? (folded : Bool) (margin : Nat) (c : Cursor) :
    Option (List Char × Cursor) := do
  let (chomp, given, c) ← blockHeader? c
  let indent? := given.map fun n => margin - 1 + n
  let fuel := c.rest.length + 1
  let (indent, trail, c) ← blockBreaks? fuel margin indent? 0 [] c
  let (block, c) ← blockLines? fuel folded indent ⟨[], [], trail, false⟩ c
  let lead := if chomp = .strip then [] else block.lead
  let trail := if chomp = .keep then block.trail else []
  return (block.text ++ lead ++ trail, c)

end Yaml
end MixedState
