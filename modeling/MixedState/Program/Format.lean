import MixedState.Instruction.Format
import MixedState.Json.Parser
import MixedState.Program.Basic

/-!
# Reading programs

A program is read from a record, and then its qubits are checked.
-/

namespace MixedState
namespace Program

def fieldNames : List String :=
  ["num_qubits", "num_memory", "num_registers", "ops", "noise"]

def ofJson? {R : Type} [Scalar R] (v : Json R) : Option (Program R) := do
  let members ← Json.record? fieldNames v
  return {
    qubits := ← members.required "num_qubits" Json.natural?
    memory := ← members.optional "num_memory" 0 Json.natural?
    registers := ← members.optional "num_registers" 0 Json.natural?
    ops := ← members.required "ops" (Json.list? Instruction.ofJson?)
    noise := ← members.optional "noise" [] (Json.list? NoiseSource.ofJson?) }

def ofText (text : String) : Except ProgramError (Program Float) :=
  match (Json.parse? text).bind ofJson? with
  | some program => program.check
  | none => .error .unreadable

end Program
end MixedState
