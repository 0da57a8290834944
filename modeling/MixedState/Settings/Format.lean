import MixedState.Json.Parser
import MixedState.Settings.Basic
import MixedState.Text.Lowercase
import MixedState.Yaml.Number

/-!
# Reading settings

Settings are read from a record or from a YAML document, any field of which may be missing.
-/

namespace MixedState
namespace Settings

def fieldNames : List String :=
  ["chop_threshold", "parallel_threshold", "threads"]

def ofJson? {R : Type} [Scalar R] (v : Json R) : Option (Settings R) := do
  let members ← Json.record? fieldNames v
  let standard : Settings R := .standard
  return {
    chopThreshold :=
      ← members.optional "chop_threshold" standard.chopThreshold Json.scalar?
    parallelThreshold :=
      ← members.optional "parallel_threshold" standard.parallelThreshold Json.natural?
    threads := ← members.optional "threads" standard.threads Json.natural? }

def yamlField? {α : Type} (members : List (String × Yaml.Node)) (name : String)
    (default : α) (read : Yaml.Node → Option α) : Option α :=
  match members.filter fun member => member.1 == name with
  | [] => some default
  | [member] => read member.2
  | _ => none

def ofPairs? (document : Yaml.Document) (pairs : List (Yaml.Node × Yaml.Node)) :
    Option (Settings Float) := do
  let members ← pairs.mapM fun (key, value) =>
    (document.leaf? key).map fun leaf => (String.ofList leaf.text, value)
  let natural? (value : Yaml.Node) := (document.leaf? value).bind Yaml.Leaf.natural?
  let real? (value : Yaml.Node) := (document.leaf? value).bind Yaml.Leaf.real?
  let standard : Settings Float := .standard
  return {
    chopThreshold := ← yamlField? members "chop_threshold" standard.chopThreshold real?
    parallelThreshold :=
      ← yamlField? members "parallel_threshold" standard.parallelThreshold natural?
    threads := ← yamlField? members "threads" standard.threads natural? }

def ofYaml? (text : String) : Option (Settings Float) := do
  let document ← Yaml.Document.ofText? text
  match document.root with
  | none => return .standard
  | some (.mapping pairs) => ofPairs? document pairs
  | some (.scalar leaf) =>
      guard (leaf.style = .plain ∧ leaf.text = [])
      return .standard
  | some _ => none

end Settings

inductive SettingsFormat where
  | yaml
  | json
  | other (ending : String)

namespace SettingsFormat

def fileName (path : List Char) : List Char :=
  let trimmed := (path.reverse.dropWhile fun c => c = '/').reverse
  (trimmed.reverse.takeWhile fun c => c ≠ '/').reverse

/-- What follows the last dot of a name that does not start there. -/
def ending (name : List Char) : List Char :=
  let tail := (name.reverse.takeWhile fun c => c ≠ '.').reverse
  if tail.length + 1 < name.length && name != ['.', '.'] then tail else []

def ofPath (path : String) : SettingsFormat :=
  match Text.lowercase (String.ofList (ending (fileName path.toList))) with
  | "yaml" => .yaml
  | "yml" => .yaml
  | "json" => .json
  | unknown => .other unknown

end SettingsFormat

end MixedState
