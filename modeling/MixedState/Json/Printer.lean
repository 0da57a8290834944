import MixedState.Json.Basic

/-!
# Writing JSON text

Values on one line without blanks, or one member or element a line, indented by two blanks a
level.  Both take the text of a number as a parameter.
-/

namespace MixedState
namespace Json

def hexDigits (n : Nat) : List Char :=
  [Nat.digitChar (n / 16 % 16), Nat.digitChar (n % 16)]

def escaped (c : Char) : List Char :=
  if c = '"' then ['\\', '"']
  else if c = '\\' then ['\\', '\\']
  else if c = '\n' then ['\\', 'n']
  else if c = '\r' then ['\\', 'r']
  else if c = '\t' then ['\\', 't']
  else if c = '\x08' then ['\\', 'b']
  else if c = '\x0c' then ['\\', 'f']
  else if c.toNat < 0x20 then '\\' :: 'u' :: '0' :: '0' :: hexDigits c.toNat
  else [c]

def quoted (s : String) : String :=
  "\"" ++ String.ofList (s.toList.flatMap escaped) ++ "\""

variable {R : Type}

mutual

def compact (number : R → String) : Json R → String
  | .null => "null"
  | .bool b => if b then "true" else "false"
  | .int n => toString n
  | .real x => number x
  | .str s => quoted s
  | .arr values => "[" ++ compactElements number values ++ "]"
  | .obj members => "\x7b" ++ compactMembers number members ++ "\x7d"
  | .unreadable => "null"

def compactElements (number : R → String) : List (Json R) → String
  | [] => ""
  | [v] => compact number v
  | v :: rest => compact number v ++ "," ++ compactElements number rest

def compactMembers (number : R → String) : List (String × Json R) → String
  | [] => ""
  | [(k, v)] => quoted k ++ ":" ++ compact number v
  | (k, v) :: rest =>
      quoted k ++ ":" ++ compact number v ++ "," ++ compactMembers number rest

end

def indent (level : Nat) : String :=
  "\n" ++ String.ofList (List.replicate (2 * level) ' ')

mutual

def pretty (number : R → String) (level : Nat) : Json R → String
  | .null => "null"
  | .bool b => if b then "true" else "false"
  | .int n => toString n
  | .real x => number x
  | .str s => quoted s
  | .arr [] => "[]"
  | .arr values =>
      "[" ++ prettyElements number (level + 1) values ++ indent level ++ "]"
  | .obj [] => "\x7b\x7d"
  | .obj members =>
      "\x7b" ++ prettyMembers number (level + 1) members ++ indent level ++ "\x7d"
  | .unreadable => "null"

def prettyElements (number : R → String) (level : Nat) : List (Json R) → String
  | [] => ""
  | [v] => indent level ++ pretty number level v
  | v :: rest =>
      indent level ++ pretty number level v ++ "," ++ prettyElements number level rest

def prettyMembers (number : R → String) (level : Nat) : List (String × Json R) → String
  | [] => ""
  | [(k, v)] => indent level ++ quoted k ++ ": " ++ pretty number level v
  | (k, v) :: rest =>
      indent level ++ quoted k ++ ": " ++ pretty number level v ++ ","
        ++ prettyMembers number level rest

end

end Json
end MixedState
