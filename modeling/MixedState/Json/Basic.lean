import MixedState.Scalar

/-!
# JSON values

Objects keep their members in order, repeated names included.  A record is read field by
field, each of them at most once.
-/

namespace MixedState

inductive Json (R : Type) where
  | null
  | bool (value : Bool)
  | int (value : Int)
  | real (value : R)
  | str (value : String)
  | arr (values : List (Json R))
  | obj (members : List (String × Json R))
  /-- Well-formed, but without a value: a number past the range of scalars or a
  string with half a surrogate pair.  Only a reader that skips it accepts it. -/
  | unreadable
  deriving Inhabited

abbrev Members (R : Type) :=
  List (String × Json R)

namespace Json

variable {R : Type} [Scalar R]

def ofScalar (x : R) : Json R :=
  if Scalar.isFinite x then .real x else .null

def ofNat (n : Nat) : Json R :=
  .int (Int.ofNat n)

def ofList {α : Type} (encode : α → Json R) (values : List α) : Json R :=
  .arr (values.map encode)

def natural? : Json R → Option Nat
  | .int (.ofNat n) => if n < 18446744073709551616 then some n else none
  | _ => none

def scalar? : Json R → Option R
  | .int n => some (Scalar.ofInt n)
  | .real x => some x
  | _ => none

def text? : Json R → Option String
  | .str s => some s
  | _ => none

/-- The name of a case without data: a string, or an object with this one name
and `null`. -/
def tag? : Json R → Option String
  | .str s => some s
  | .obj [(s, .null)] => some s
  | _ => none

def list? {α : Type} (decode : Json R → Option α) : Json R → Option (List α)
  | .arr values => values.mapM decode
  | _ => none

def nullable? {α : Type} (decode : Json R → Option α) : Json R → Option (Option α)
  | .null => some none
  | v => (decode v).map some

def pair? {α β : Type} (first : Json R → Option α) (second : Json R → Option β) :
    Json R → Option (α × β)
  | .arr [a, b] => do return (← first a, ← second b)
  | _ => none

mutual

def height? : Json R → Option Nat
  | .arr values => (elementsHeight? values).map (· + 1)
  | .obj members => (membersHeight? members).map (· + 1)
  | .unreadable => none
  | _ => some 0

def elementsHeight? : List (Json R) → Option Nat
  | [] => some 0
  | v :: rest => do return max (← height? v) (← elementsHeight? rest)

def membersHeight? : List (String × Json R) → Option Nat
  | [] => some 0
  | (_, v) :: rest => do return max (← height? v) (← membersHeight? rest)

end

/-- The fields of a record: an object, or the leading fields in their order. -/
def record? (names : List String) : Json R → Option (Members R)
  | .obj members => some members
  | .arr values => if values.length ≤ names.length then some (names.zip values) else none
  | _ => none

end Json

namespace Members

variable {R : Type}

def values (name : String) (members : Members R) : List (Json R) :=
  members.filterMap fun member => if member.1 == name then some member.2 else none

def required {α : Type} (members : Members R) (name : String)
    (decode : Json R → Option α) : Option α :=
  match members.values name with
  | [v] => decode v
  | _ => none

def optional {α : Type} (members : Members R) (name : String) (default : α)
    (decode : Json R → Option α) : Option α :=
  match members.values name with
  | [] => some default
  | [v] => decode v
  | _ => none

def last? (members : Members R) (name : String) : Option (Json R) :=
  (members.values name).getLast?

end Members

end MixedState
