import MixedState.Instruction.Basic
import MixedState.Json.Basic

/-!
# The written form of instructions

An instruction is written as a record.  Its kind and name are required; any
other field may be missing, and fields of other names are skipped.
-/

namespace MixedState

variable {R : Type} [Scalar R]

def Amplitude.toJson (a : Amplitude R) : Json R :=
  .arr [Json.ofScalar a.re, Json.ofScalar a.im]

def Amplitude.ofJson? (v : Json R) : Option (Amplitude R) :=
  (Json.pair? Json.scalar? Json.scalar? v).map fun (re, im) => ⟨re, im⟩

namespace Mat

def toJson (m : Mat R) : Json R :=
  .obj [("v", .int 1),
    ("dim", .arr [Json.ofNat m.rows, Json.ofNat m.cols]),
    ("data", Json.ofList Amplitude.toJson m.entries.toList)]

def version? : Json R → Option Unit
  | .int 1 => some ()
  | _ => none

def isShape (rows cols : Nat) : Bool :=
  max rows 1 * max cols 1 < bufferLimit

/-- A matrix is written with its version, its two dimensions and its entries row
by row; the last of repeated fields counts. -/
def ofJson? (v : Json R) : Option (Mat R) := do
  let names := ["v", "dim", "data"]
  let members ← Json.record? names v
  guard (members.all fun member => names.contains member.1)
  for value in members.values "v" do version? value
  let dims ← (members.values "dim").mapM (Json.pair? Json.natural? Json.natural?)
  let entries ← (members.values "data").mapM (Json.list? Amplitude.ofJson?)
  let _ ← members.last? "v"
  let (rows, cols) ← dims.getLast?
  guard (isShape rows cols)
  ofEntries? rows cols (← entries.getLast?).toArray

end Mat

namespace Kind

def ofJson? (v : Json R) : Option Kind :=
  v.tag?.bind ofName?

end Kind

namespace SaveMode

def ofJson? (v : Json R) : Option SaveMode :=
  v.tag?.bind ofName?

end SaveMode

namespace Relation

def ofJson? (v : Json R) : Option Relation :=
  v.tag?.bind ofSign?

end Relation

namespace PauliTerm

def toJson (term : PauliTerm R) : Json R :=
  .obj [("pauli", .str term.pauli),
    ("coeff", Json.ofScalar term.coeff),
    ("sq_coeff", Json.ofScalar term.sqCoeff)]

def ofJson? (v : Json R) : Option (PauliTerm R) := do
  let members ← Json.record? ["pauli", "coeff", "sq_coeff"] v
  return {
    pauli := ← members.required "pauli" Json.text?
    coeff := ← members.required "coeff" Json.scalar?
    sqCoeff := ← members.optional "sq_coeff" 0 Json.scalar? }

end PauliTerm

namespace Instruction

def fieldNames : List String :=
  ["type", "name", "qubits", "params", "mats", "string_params", "int_params", "memory",
    "registers", "conditional", "bfunc", "probs", "expval_params", "save_type"]

def naturals (ns : List Nat) : Json R :=
  Json.ofList Json.ofNat ns

def toJson (op : Instruction R) : Json R :=
  .obj ([("type", .str op.kind.name),
    ("name", .str op.name),
    ("qubits", naturals op.qubits),
    ("params", Json.ofList Amplitude.toJson op.params.toList),
    ("mats", Json.ofList Mat.toJson op.matrices),
    ("string_params", Json.ofList Json.str op.texts),
    ("int_params", naturals op.indices),
    ("memory", naturals op.memory),
    ("registers", naturals op.registers)]
    ++ (op.condition.map fun bit => ("conditional", Json.ofNat bit)).toList
    ++ (op.relation.map fun relation => ("bfunc", Json.str relation.sign)).toList
    ++ [("probs", Json.ofList (Json.ofList Json.ofScalar) op.readout),
    ("expval_params", Json.ofList PauliTerm.toJson op.terms),
    ("save_type", .str op.saveMode.name)])

def ofJson? (v : Json R) : Option (Instruction R) := do
  let members ← Json.record? fieldNames v
  let naturals := Json.list? Json.natural?
  return {
    kind := ← members.required "type" Kind.ofJson?
    name := ← members.required "name" Json.text?
    qubits := ← members.optional "qubits" [] naturals
    params := (← members.optional "params" [] (Json.list? Amplitude.ofJson?)).toArray
    matrices := ← members.optional "mats" [] (Json.list? Mat.ofJson?)
    texts := ← members.optional "string_params" [] (Json.list? Json.text?)
    indices := ← members.optional "int_params" [] naturals
    memory := ← members.optional "memory" [] naturals
    registers := ← members.optional "registers" [] naturals
    condition := ← members.optional "conditional" none (Json.nullable? Json.natural?)
    relation := ← members.optional "bfunc" none (Json.nullable? Relation.ofJson?)
    readout := ← members.optional "probs" [] (Json.list? (Json.list? Json.scalar?))
    terms := ← members.optional "expval_params" [] (Json.list? PauliTerm.ofJson?)
    saveMode := ← members.optional "save_type" .single SaveMode.ofJson? }

end Instruction

end MixedState
