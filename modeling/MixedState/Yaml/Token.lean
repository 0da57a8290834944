import MixedState.Yaml.Property
import MixedState.Yaml.Scalar

/-!
# Tokens of a document

The marks and the texts of a document.
-/

namespace MixedState
namespace Yaml

inductive Token where
  | directive (directive : Directive)
  | documentStart
  | documentEnd
  | sequenceStart
  | mappingStart
  | blockEnd
  | listOpen
  | listClose
  | mapOpen
  | mapClose
  | comma
  | entry
  | key
  | value
  | alias (name : List Char)
  | anchor (name : List Char)
  | tag (tag : Tag)
  | scalar (style : ScalarStyle) (text : List Char)
  deriving DecidableEq

/-- A place where a key may have begun; a colon after it tells whether it has. -/
structure KeyStart where
  /-- Tokens before it. -/
  position : Nat
  index : Nat
  line : Nat
  column : Nat
  /-- Whether nothing but a key may begin there. -/
  required : Bool

def KeyStart.isPast (start : KeyStart) (c : Cursor) : Bool :=
  start.line < c.line || start.index + 1024 < c.index

end Yaml
end MixedState
