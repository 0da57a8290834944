/-!
# Files

A run reads its files by path.  Paths of one folder without subfolders are relative to it.
-/

namespace MixedState

inductive FileState where
  | missing
  /-- There is something without a text, such as a folder. -/
  | unreadable
  | text (content : String)

structure Files where
  look : String → FileState

namespace Folder

inductive Target where
  | folder
  | file (name : String)
  | nothing
  deriving DecidableEq

def components (path : String) : List String :=
  (path.splitOn "/").filter fun part => part != "" && part != "."

def isLegal (path : String) : Bool :=
  !path.isEmpty && !path.toList.contains '\x00' && path.utf8ByteSize < 4096
    && (components path).all fun part => part.utf8ByteSize < 256

/-- A path that leads through a file or a missing folder names nothing.  What stands
above the folder is a folder, and nothing is known inside it. -/
def target (path : String) : Target :=
  if !isLegal path then .nothing
  else
    let parts := components path
    if parts.all fun part => part == ".." then .folder
    else
      match parts with
      | [name] =>
          if path.startsWith "/" || path.endsWith "/" || path.endsWith "/." then .nothing
          else .file name
      | _ => .nothing

def fileName? (path : String) : Option String :=
  match target path with
  | .file name => some name
  | _ => none

def canWrite (path : String) : Bool :=
  (fileName? path).isSome

end Folder

namespace Files

def ofList (known : List (String × FileState)) : Files :=
  ⟨fun path => (known.lookup path).getD .missing⟩

def ofFolder (files : List (String × String)) : Files :=
  let named := files.reverse.filterMap fun (path, content) =>
    (Folder.fileName? path).map fun name => (name, content)
  ⟨fun path =>
    match Folder.target path with
    | .folder => .unreadable
    | .nothing => .missing
    | .file name =>
        match named.lookup name with
        | some content => .text content
        | none => .missing⟩

end Files

end MixedState
