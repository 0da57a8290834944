/-!
# Kinds of instructions

What an instruction does, how saved values of one key are combined, and how a Boolean
function compares.
-/

namespace MixedState

inductive Kind where
  | gate
  | measure
  | reset
  | barrier
  | bfunc
  | errorLocation
  | readoutError
  | matrix
  | diagonal
  | kraus
  | superop
  | setStatevec
  | setDensmat
  | saveExpval
  | saveExpvalVar
  | saveDensmat
  | saveProbs
  | saveProbsKet
  | saveAmpsSq
  | saveState
  | jump
  | mark
  | prepare
  | saveStatevec
  | saveAmps
  | setStabilizer
  deriving DecidableEq, Repr

namespace Kind

def all : List Kind :=
  [gate, measure, reset, barrier, bfunc, errorLocation, readoutError, matrix, diagonal,
    kraus, superop, setStatevec, setDensmat, saveExpval, saveExpvalVar, saveDensmat,
    saveProbs, saveProbsKet, saveAmpsSq, saveState, jump, mark, prepare, saveStatevec,
    saveAmps, setStabilizer]

def name : Kind → String
  | gate => "gate"
  | measure => "measure"
  | reset => "reset"
  | barrier => "barrier"
  | bfunc => "bfunc"
  | errorLocation => "qerror_loc"
  | readoutError => "roerror"
  | matrix => "matrix"
  | diagonal => "diagonal_matrix"
  | kraus => "kraus"
  | superop => "superop"
  | setStatevec => "set_statevec"
  | setDensmat => "set_densmat"
  | saveExpval => "save_expval"
  | saveExpvalVar => "save_expval_var"
  | saveDensmat => "save_densmat"
  | saveProbs => "save_probs"
  | saveProbsKet => "save_probs_ket"
  | saveAmpsSq => "save_amps_sq"
  | saveState => "save_state"
  | jump => "jump"
  | mark => "mark"
  | prepare => "initialize"
  | saveStatevec => "save_statevec"
  | saveAmps => "save_amps"
  | setStabilizer => "set_stabilizer"

def ofName? (text : String) : Option Kind :=
  all.find? fun kind => kind.name == text

def isSave : Kind → Bool
  | saveExpval | saveExpvalVar | saveDensmat | saveProbs | saveProbsKet | saveAmpsSq
  | saveState | saveStatevec | saveAmps => true
  | _ => false

theorem ofName?_name (kind : Kind) : ofName? kind.name = some kind := by
  cases kind <;> rfl

end Kind

inductive Combine where
  | latest
  | every
  | average
  deriving DecidableEq, Repr

/-- How saved values of one key are combined, and whether values are kept apart
by the classical memory at the time of saving. -/
structure SaveMode where
  combine : Combine
  perMemory : Bool
  deriving DecidableEq, Repr

namespace SaveMode

def single : SaveMode := ⟨.latest, false⟩

def all : List SaveMode :=
  [⟨.latest, false⟩, ⟨.latest, true⟩, ⟨.every, false⟩, ⟨.every, true⟩, ⟨.average, false⟩,
    ⟨.average, true⟩]

def name : SaveMode → String
  | ⟨.latest, false⟩ => "single"
  | ⟨.latest, true⟩ => "c_single"
  | ⟨.every, false⟩ => "list"
  | ⟨.every, true⟩ => "c_list"
  | ⟨.average, false⟩ => "average"
  | ⟨.average, true⟩ => "c_average"

def ofName? (text : String) : Option SaveMode :=
  all.find? fun mode => mode.name == text

def promoted (mode : SaveMode) : SaveMode :=
  match mode.combine with
  | .latest => { mode with combine := .average }
  | _ => mode

theorem ofName?_name (mode : SaveMode) : ofName? mode.name = some mode := by
  rcases mode with ⟨combine, perMemory⟩
  cases combine <;> cases perMemory <;> rfl

end SaveMode

inductive Relation where
  | equal
  | notEqual
  | less
  | lessEqual
  | greater
  | greaterEqual
  deriving DecidableEq, Repr

namespace Relation

def all : List Relation :=
  [equal, notEqual, less, lessEqual, greater, greaterEqual]

def sign : Relation → String
  | equal => "=="
  | notEqual => "!="
  | less => "<"
  | lessEqual => "<="
  | greater => ">"
  | greaterEqual => ">="

def ofSign? (text : String) : Option Relation :=
  all.find? fun relation => relation.sign == text

def holds : Relation → Ordering → Bool
  | equal, order => order == .eq
  | notEqual, order => order != .eq
  | less, order => order == .lt
  | lessEqual, order => order != .gt
  | greater, order => order == .gt
  | greaterEqual, order => order != .lt

theorem ofSign?_sign (relation : Relation) : ofSign? relation.sign = some relation := by
  cases relation <;> rfl

end Relation

end MixedState
