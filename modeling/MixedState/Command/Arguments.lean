import MixedState.Command.Run

/-!
# Command-line arguments

The first word names a command, and its options follow as a name and a value each.
-/

namespace MixedState

inductive Command where
  | run (request : RunRequest)
  | memory (qubits : Nat)
  | version

structure Options where
  input : Option String
  settings : Option String
  shots : Option Nat
  seed : Option Nat
  output : Option String
  qubits : Option Nat

namespace Options

def empty : Options :=
  ⟨none, none, none, none, none, none⟩

def word? (text : String) : Option Nat :=
  text.toNat?.filter fun n => n < wordSize

def set? (options : Options) (name value : String) : Option Options :=
  match name with
  | "-i" | "--input" => some { options with input := some value }
  | "-c" | "--config" => some { options with settings := some value }
  | "-s" | "--shots" => (word? value).map fun n => { options with shots := some n }
  | "--seed" => (word? value).map fun n => { options with seed := some n }
  | "-o" | "--output" => some { options with output := some value }
  | "-q" | "--qubits" => (word? value).map fun n => { options with qubits := some n }
  | _ => none

def ofArguments? (options : Options) : List String → Option Options
  | [] => some options
  | name :: value :: rest => (options.set? name value).bind fun options => ofArguments? options rest
  | [_] => none

end Options

def Command.ofArguments? (seed : Nat) : List String → Option Command
  | "run" :: rest => do
      let options ← Options.empty.ofArguments? rest
      return .run {
        input := ← options.input
        settings := options.settings
        shots := options.shots.getD 0
        seed := options.seed.getD seed
        output := options.output }
  | "memory" :: rest => do
      let options ← Options.empty.ofArguments? rest
      return .memory (← options.qubits)
  | ["version"] => some .version
  | _ => none

def usage : String :=
  "Usage: densim run -i INPUT [-c CONFIG] [-s SHOTS] [--seed SEED] [-o OUTPUT]\n"
    ++ "       densim memory -q QUBITS\n"
    ++ "       densim version\n"

end MixedState
