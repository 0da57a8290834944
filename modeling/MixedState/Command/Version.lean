/-!
# The version

The line that the version command prints.
-/

namespace MixedState

def version : String :=
  "0.3.0"

def versionText : String :=
  s!"densim v{version} - density-matrix evolution with noise channels\n\n"
    ++ "Components:\n"
    ++ "  densim-ir      Instruction model, gate table and noise models\n"
    ++ "  densim-engine  Chunk-aware density-matrix engine\n"
    ++ "  densim-cli     Command-line interface\n\n"
    ++ "License:    Apache-2.0\n"

end MixedState
